import Tdnf.Client.HistoryResolve
import Tdnf.Solv.Nevra

/-!
# The jobs of a history command

`TDNFHistoryResolve` looks every package of the delta up in the pool. The added
ones are to be installed, unless they are already, or are reported as not
resolved; the removed ones are to be erased.
-/

namespace Tdnf.Client

open History Relational Procedure PathText Common Solv

/-- The queues for `TDNFHistoryGoal`, from both loops of `TDNFHistoryResolve` -/
def resolveQueues (sack : Sack) (rpms : AutoTable String) (hd : HistoryDelta) :
    Except TdnfError ResolveQueues := do
  let q ← hd.addedIds.foldlM (resolveAdded sack rpms) ⟨[], [], []⟩
  hd.removedIds.foldlM (resolveRemoved sack rpms) q

/-- The goals of a history command are those of its queues. -/
theorem resolvePackages_eq {host : ResolveHost} {db : Db} {rpms : AutoTable String}
    (hrpms : db.rpms = some rpms) (hd : HistoryDelta) :
    resolvePackages host db hd = (do
      let q ← resolveQueues host.sack rpms hd
      let info ← host.historyGoal q.qInstall q.qErase
      return info.needAction) := by
  rw [resolvePackages, hrpms, resolveQueues]
  simp only [bind_assoc]

/-- The NEVRAs of a list of ids -/
def nevras (rpms : AutoTable String) (ids : List ℕ) : List Text :=
  ids.filterMap (historyGetNevra rpms)

/-- The queues hold what is to be done for the added and the removed NEVRAs: there is one entry
for each added NEVRA that is available and not installed. -/
structure ExactJobs (sack : Sack) (added removed : List Text) (q : ResolveQueues) : Prop where
  notResolved : ∀ name, name ∈ q.ppszPkgsNotResolved ↔
    name ∈ added ∧ isPubkey name = false ∧ ¬ sack.Holds name ∧ ¬ sack.Offers name
  install : ∃ pick : Text → ℕ,
    q.qInstall = (added.filter fun name => sack.Offers name ∧ ¬ sack.Holds name).map pick ∧
      ∀ name ∈ added, sack.Offers name → ¬ sack.Holds name →
        pick name ∈ sack.ids ∧ sack.isInstalled (pick name) = false ∧
          (sack.solvable (pick name)).HasNevra name
  erase : ∀ p, p ∈ q.qErase ↔ p ∈ sack.ids ∧ sack.isInstalled p = true ∧
    ∃ name ∈ removed, (sack.solvable p).HasNevra name

/-- Every id has a NEVRA in the history, which can be looked up and reported. -/
structure LookupsSucceed (sack : Sack) (rpms : AutoTable String) (hd : HistoryDelta) :
    Prop where
  named : ∀ id ∈ hd.addedIds ++ hd.removedIds, ∃ name, historyGetNevra rpms id = some name ∧
    (isPubkey name = true ∨ (splitNevra name).isSome)
  reportable : ∀ name ∈ nevras rpms hd.addedIds, isPubkey name = false → ¬ sack.Offers name →
    strlen name ≤ 16384000

section Rounds

variable {sack : Sack} {rpms : AutoTable String} {q q' : ResolveQueues}

def ResolveQueues.append (q more : ResolveQueues) : ResolveQueues :=
  ⟨q.qInstall ++ more.qInstall, q.qErase ++ more.qErase,
    q.ppszPkgsNotResolved ++ more.ppszPkgsNotResolved⟩

/-- The package that is installed for a NEVRA -/
def firstOffered (sack : Sack) (name : Text) : ℕ := (sack.spelled false name).headD 0

/-- What an added NEVRA contributes -/
def addedJobs (sack : Sack) (name : Text) : ResolveQueues :=
  if isPubkey name then ⟨[], [], []⟩
  else if ¬ sack.Offers name then ⟨[], [], [name]⟩
  else if ¬ sack.Holds name then ⟨[firstOffered sack name], [], []⟩
  else ⟨[], [], []⟩

/-- What a removed NEVRA contributes -/
def removedJobs (sack : Sack) (name : Text) : ResolveQueues :=
  if isPubkey name then ⟨[], [], []⟩ else ⟨[], sack.spelled true name, []⟩

/-- The contributions of several NEVRAs -/
def gatherJobs (jobs : Text → ResolveQueues) (names : List Text) : ResolveQueues :=
  ⟨names.flatMap fun name => (jobs name).qInstall, names.flatMap fun name => (jobs name).qErase,
    names.flatMap fun name => (jobs name).ppszPkgsNotResolved⟩

/-- A NEVRA that the loop over the added packages does not fail on -/
def AddedOk (sack : Sack) (name : Text) : Prop :=
  isPubkey name = true ∨
    (splitNevra name).isSome ∧ (¬ sack.Offers name → strlen name ≤ 16384000)

def RemovedOk (name : Text) : Prop := isPubkey name = true ∨ (splitNevra name).isSome

theorem ResolveQueues.append_nil (q : ResolveQueues) : q.append ⟨[], [], []⟩ = q := by
  simp [ResolveQueues.append]

theorem resolveAdded_eq_ok_iff {id : ℕ} : resolveAdded sack rpms q id = .ok q' ↔
    ∃ name, historyGetNevra rpms id = some name ∧ AddedOk sack name ∧
      q' = q.append (addedJobs sack name) := by
  rw [resolveAdded]
  cases hname : historyGetNevra rpms id with
  | none => simp [throw, throwThe, MonadExceptOf.throw]
  | some name =>
      simp only [Option.some.injEq, exists_eq_left', AddedOk, addedJobs,
        findSolvablesByNevraStr_eq]
      by_cases hpubkey : isPubkey name = true
      · simp only [hpubkey, if_true, true_or, true_and, ResolveQueues.append_nil]
        exact Except.ok.injEq q q' ▸ eq_comm
      by_cases hsplit : (splitNevra name).isSome
      · cases hspelled : sack.spelled false name with
        | nil =>
            have hoffers : ¬ sack.Offers name := fun h => spelled_false_ne_nil.mpr h hspelled
            by_cases hlong : 16384000 < strlen name
            · simp [hpubkey, hsplit, hoffers, hlong, allocateString, bind, Except.bind]
            · simp [hpubkey, hsplit, hoffers, Nat.le_of_not_lt hlong, hlong, allocateString,
                ResolveQueues.append, bind, Except.bind, pure, Except.pure]
              exact eq_comm
        | cons p rest =>
            have hoffers : sack.Offers name := spelled_false_ne_nil.mp (by simp [hspelled])
            have hfirst : firstOffered sack name = p := by rw [firstOffered, hspelled]; rfl
            by_cases hholds : sack.Holds name
            · have hinstalled : sack.spelled true name ≠ [] := spelled_true_ne_nil.mpr hholds
              simp [hpubkey, hsplit, hoffers, hholds, hinstalled, ResolveQueues.append_nil,
                bind, Except.bind, pure, Except.pure]
              exact eq_comm
            · have hinstalled : sack.spelled true name = [] := by
                by_contra hne
                exact hholds (spelled_true_ne_nil.mp hne)
              simp [hpubkey, hsplit, hoffers, hholds, hinstalled, hfirst, ResolveQueues.append,
                bind, Except.bind, pure, Except.pure]
              exact eq_comm
      · simp [hpubkey, hsplit, bind, Except.bind]

theorem resolveRemoved_eq_ok_iff {id : ℕ} : resolveRemoved sack rpms q id = .ok q' ↔
    ∃ name, historyGetNevra rpms id = some name ∧ RemovedOk name ∧
      q' = q.append (removedJobs sack name) := by
  rw [resolveRemoved]
  cases hname : historyGetNevra rpms id with
  | none => simp [throw, throwThe, MonadExceptOf.throw]
  | some name =>
      simp only [Option.some.injEq, exists_eq_left', RemovedOk, removedJobs,
        findSolvablesByNevraStr_eq]
      by_cases hpubkey : isPubkey name = true
      · simp only [hpubkey, if_true, true_or, true_and, ResolveQueues.append_nil]
        exact Except.ok.injEq q q' ▸ eq_comm
      by_cases hsplit : (splitNevra name).isSome
      · simp [hpubkey, hsplit, ResolveQueues.append, bind, Except.bind, pure, Except.pure]
        exact eq_comm
      · simp [hpubkey, hsplit, bind, Except.bind]

theorem ResolveQueues.append_assoc (q more rest : ResolveQueues) :
    (q.append more).append rest = q.append (more.append rest) := by
  simp [ResolveQueues.append]

theorem gatherJobs_cons (jobs : Text → ResolveQueues) (name : Text) (names : List Text) :
    gatherJobs jobs (name :: names) = (jobs name).append (gatherJobs jobs names) := by
  simp [gatherJobs, ResolveQueues.append]

theorem nevras_cons {id : ℕ} {name : Text} (h : historyGetNevra rpms id = some name)
    (rest : List ℕ) : nevras rpms (id :: rest) = name :: nevras rpms rest := by
  rw [nevras, List.filterMap_cons_some h, nevras]

/-- A loop whose rounds append the jobs of one NEVRA each gathers them all. -/
theorem foldlM_eq_ok_iff {step : ResolveQueues → ℕ → Except TdnfError ResolveQueues}
    {jobs : Text → ResolveQueues} {ok : Text → Prop}
    (hstep : ∀ q id q', step q id = .ok q' ↔ ∃ name, historyGetNevra rpms id = some name ∧
      ok name ∧ q' = q.append (jobs name)) (ids : List ℕ) (q q' : ResolveQueues) :
    ids.foldlM step q = .ok q' ↔
      (∀ id ∈ ids, ∃ name, historyGetNevra rpms id = some name ∧ ok name) ∧
        q' = q.append (gatherJobs jobs (nevras rpms ids)) := by
  induction ids generalizing q with
  | nil =>
      rw [List.foldlM_nil, nevras, List.filterMap_nil, gatherJobs]
      simp only [List.flatMap_nil, ResolveQueues.append_nil, List.not_mem_nil, false_implies,
        implies_true, true_and]
      exact Except.ok.injEq q q' ▸ eq_comm
  | cons id rest ih =>
      rw [List.foldlM_cons]
      constructor
      · intro h
        obtain ⟨next, hnext, hrest⟩ := exists_of_bind_ok h
        obtain ⟨name, hname, hok, rfl⟩ := (hstep q id next).mp hnext
        obtain ⟨hall, rfl⟩ := (ih (q.append (jobs name))).mp hrest
        refine ⟨?_, ?_⟩
        · rintro id' hid
          obtain rfl | hid := List.mem_cons.mp hid
          · exact ⟨name, hname, hok⟩
          · exact hall id' hid
        · rw [nevras_cons hname, gatherJobs_cons, ResolveQueues.append_assoc]
      · rintro ⟨hall, rfl⟩
        obtain ⟨name, hname, hok⟩ := hall id List.mem_cons_self
        rw [(hstep q id _).mpr ⟨name, hname, hok, rfl⟩]
        refine (ih (q.append (jobs name))).mpr ⟨fun id' hid => ?_, ?_⟩
        · exact hall id' (List.mem_cons_of_mem id hid)
        · rw [nevras_cons hname, gatherJobs_cons, ResolveQueues.append_assoc]

/-- When both loops succeed, and the queues they build. -/
theorem resolveQueues_eq_ok_iff {hd : HistoryDelta} : resolveQueues sack rpms hd = .ok q ↔
    (∀ id ∈ hd.addedIds, ∃ name, historyGetNevra rpms id = some name ∧ AddedOk sack name) ∧
      (∀ id ∈ hd.removedIds, ∃ name, historyGetNevra rpms id = some name ∧ RemovedOk name) ∧
      q = (gatherJobs (addedJobs sack) (nevras rpms hd.addedIds)).append
        (gatherJobs (removedJobs sack) (nevras rpms hd.removedIds)) := by
  have hadd : ∀ q id q', resolveAdded sack rpms q id = .ok q' ↔
      ∃ name, historyGetNevra rpms id = some name ∧ AddedOk sack name ∧
        q' = q.append (addedJobs sack name) := fun _ _ _ => resolveAdded_eq_ok_iff
  have hremove : ∀ q id q', resolveRemoved sack rpms q id = .ok q' ↔
      ∃ name, historyGetNevra rpms id = some name ∧ RemovedOk name ∧
        q' = q.append (removedJobs sack name) := fun _ _ _ => resolveRemoved_eq_ok_iff
  have hadded := foldlM_eq_ok_iff hadd hd.addedIds ⟨[], [], []⟩
  have hremoved := foldlM_eq_ok_iff hremove hd.removedIds
  rw [resolveQueues]
  constructor
  · intro h
    obtain ⟨mid, hmid, hrest⟩ := exists_of_bind_ok h
    obtain ⟨hallAdded, rfl⟩ := (hadded mid).mp hmid
    obtain ⟨hallRemoved, rfl⟩ := (hremoved _ q).mp hrest
    exact ⟨hallAdded, hallRemoved, rfl⟩
  · rintro ⟨hallAdded, hallRemoved, rfl⟩
    rw [(hadded _).mpr ⟨hallAdded, rfl⟩]
    exact (hremoved _ _).mpr ⟨hallRemoved, rfl⟩

end Rounds

section Contents

variable {sack : Sack} {names added removed : List Text} {name : Text} {p : ℕ}

theorem gatherJobs_addedJobs_qErase : (gatherJobs (addedJobs sack) names).qErase = [] := by
  rw [gatherJobs, List.flatMap_eq_nil_iff]
  intro name _
  rw [addedJobs]
  split_ifs <;> rfl

theorem gatherJobs_removedJobs_qInstall : (gatherJobs (removedJobs sack) names).qInstall = [] := by
  rw [gatherJobs, List.flatMap_eq_nil_iff]
  intro name _
  rw [removedJobs]
  split_ifs <;> rfl

theorem gatherJobs_removedJobs_notResolved :
    (gatherJobs (removedJobs sack) names).ppszPkgsNotResolved = [] := by
  rw [gatherJobs, List.flatMap_eq_nil_iff]
  intro name _
  rw [removedJobs]
  split_ifs <;> rfl

/-- Whatever is not offered is reported, installed or not. -/
theorem mem_notResolved :
    name ∈ (gatherJobs (addedJobs sack) names).ppszPkgsNotResolved ↔
      name ∈ names ∧ isPubkey name = false ∧ ¬ sack.Offers name := by
  have hround : ∀ name', name ∈ (addedJobs sack name').ppszPkgsNotResolved ↔
      name = name' ∧ isPubkey name' = false ∧ ¬ sack.Offers name' := by
    intro name'
    rw [addedJobs]
    split_ifs with hpubkey hoffered hinstalled <;> simp_all
  rw [gatherJobs, List.mem_flatMap]
  simp only [hround]
  constructor
  · rintro ⟨name', hmem, rfl, hrest⟩
    exact ⟨hmem, hrest⟩
  · rintro ⟨hmem, hrest⟩
    exact ⟨name, hmem, rfl, hrest⟩

theorem firstOffered_mem (h : sack.Offers name) :
    firstOffered sack name ∈ sack.ids ∧ sack.isInstalled (firstOffered sack name) = false ∧
      (sack.solvable (firstOffered sack name)).HasNevra name := by
  obtain ⟨p, rest, hspelled⟩ := List.exists_cons_of_ne_nil (spelled_false_ne_nil.mpr h)
  have hfirst : firstOffered sack name = p := by rw [firstOffered, hspelled, List.headD_cons]
  rw [hfirst]
  exact mem_spelled.mp (hspelled ▸ List.mem_cons_self)

theorem qInstall_eq : (gatherJobs (addedJobs sack) names).qInstall =
    (names.filter fun name => isPubkey name = false ∧ sack.Offers name ∧
      ¬ sack.Holds name).map (firstOffered sack) := by
  induction names with
  | nil => rfl
  | cons name rest ih =>
      have hround : (addedJobs sack name).qInstall =
          if isPubkey name = false ∧ sack.Offers name ∧ ¬ sack.Holds name then
            [firstOffered sack name] else [] := by
        rw [addedJobs]
        split_ifs with hpubkey hoffered hinstalled <;> simp_all
      rw [gatherJobs_cons, ResolveQueues.append, hround, ih, List.filter_cons]
      split_ifs with hwanted <;> simp_all

theorem mem_qErase : p ∈ (gatherJobs (removedJobs sack) names).qErase ↔
    p ∈ sack.ids ∧ sack.isInstalled p = true ∧
      ∃ name ∈ names, isPubkey name = false ∧ (sack.solvable p).HasNevra name := by
  have hround : ∀ name, p ∈ (removedJobs sack name).qErase ↔ isPubkey name = false ∧
      p ∈ sack.ids ∧ sack.isInstalled p = true ∧ (sack.solvable p).HasNevra name := by
    intro name
    rw [removedJobs]
    split_ifs with hpubkey
    · simp [hpubkey]
    · simp [hpubkey, mem_spelled]
  rw [gatherJobs, List.mem_flatMap]
  simp only [hround]
  constructor
  · rintro ⟨name, hmem, hpubkey, hp, hinstalled, hnevra⟩
    exact ⟨hp, hinstalled, name, hmem, hpubkey, hnevra⟩
  · rintro ⟨hp, hinstalled, name, hmem, hpubkey, hnevra⟩
    exact ⟨name, hmem, hpubkey, hp, hinstalled, hnevra⟩

end Contents

section Exactness

variable {sack : Sack} {rpms : AutoTable String} {hd : HistoryDelta}
  {added removed : List Text}

theorem mem_nevras {ids : List ℕ} {name : Text} :
    name ∈ nevras rpms ids ↔ ∃ id ∈ ids, historyGetNevra rpms id = some name :=
  List.mem_filterMap

/-- The lookups succeed where no round of the loops fails. -/
theorem lookupsSucceed_iff : LookupsSucceed sack rpms hd ↔
    (∀ id ∈ hd.addedIds, ∃ name, historyGetNevra rpms id = some name ∧ AddedOk sack name) ∧
      ∀ id ∈ hd.removedIds, ∃ name, historyGetNevra rpms id = some name ∧ RemovedOk name := by
  constructor
  · rintro ⟨hnamed, hreportable⟩
    refine ⟨fun id hid => ?_, fun id hid => hnamed id (List.mem_append_right _ hid)⟩
    obtain ⟨name, hname, hsplit⟩ := hnamed id (List.mem_append_left _ hid)
    refine ⟨name, hname, ?_⟩
    by_cases hpubkey : isPubkey name = true
    · exact .inl hpubkey
    · have hmem : name ∈ nevras rpms hd.addedIds := mem_nevras.mpr ⟨id, hid, hname⟩
      exact .inr ⟨hsplit.resolve_left hpubkey,
        hreportable name hmem (Bool.not_eq_true _ ▸ hpubkey)⟩
  · rintro ⟨hadded, hremoved⟩
    refine ⟨fun id hid => ?_, fun name hmem hpubkey hoffers => ?_⟩
    · obtain hid | hid := List.mem_append.mp hid
      · obtain ⟨name, hname, hok⟩ := hadded id hid
        exact ⟨name, hname, hok.imp_right And.left⟩
      · exact hremoved id hid
    · obtain ⟨id, hid, hname⟩ := mem_nevras.mp hmem
      obtain ⟨name', hname', hok⟩ := hadded id hid
      obtain rfl : name' = name := Option.some.inj (hname'.symm.trans hname)
      obtain hpubkey' | hok := hok
      · exact absurd hpubkey' (by simp [hpubkey])
      · exact hok.2 hoffers

/-- When the contributions of all NEVRAs are what is to be done. -/
theorem exactJobs_iff :
    ExactJobs sack added removed
        ((gatherJobs (addedJobs sack) added).append (gatherJobs (removedJobs sack) removed)) ↔
      (∀ name ∈ added, isPubkey name = false → sack.Holds name → sack.Offers name) ∧
        (∀ name ∈ added, isPubkey name = true → sack.Offers name → sack.Holds name) ∧
          ∀ name ∈ removed, isPubkey name = true → ¬ sack.Holds name := by
  have hqueues : (gatherJobs (addedJobs sack) added).append
      (gatherJobs (removedJobs sack) removed) =
      ⟨(gatherJobs (addedJobs sack) added).qInstall, (gatherJobs (removedJobs sack) removed).qErase,
        (gatherJobs (addedJobs sack) added).ppszPkgsNotResolved⟩ := by
    rw [ResolveQueues.append, gatherJobs_addedJobs_qErase, gatherJobs_removedJobs_qInstall,
      gatherJobs_removedJobs_notResolved, List.append_nil, List.append_nil, List.nil_append]
  rw [hqueues]
  constructor
  · intro h
    refine ⟨fun name hmem hpubkey hholds => ?_, fun name hmem hpubkey hoffers => ?_,
      fun name hmem hpubkey => ?_⟩
    · by_contra hoffers
      have hreported := mem_notResolved.mpr ⟨hmem, hpubkey, hoffers⟩
      exact ((h.notResolved name).mp hreported).2.2.1 hholds
    · -- what is queued for a key would be queued for another NEVRA
      by_contra hholds
      obtain ⟨pick, hinstall, hpick⟩ := h.install
      have hqueued : pick name ∈ (gatherJobs (addedJobs sack) added).qInstall := by
        rw [hinstall]
        refine List.mem_map_of_mem (List.mem_filter.mpr ⟨hmem, ?_⟩)
        simp [hoffers, hholds]
      rw [qInstall_eq] at hqueued
      obtain ⟨other, hother, heq⟩ := List.mem_map.mp hqueued
      obtain ⟨-, htest⟩ := List.mem_filter.mp hother
      obtain ⟨hnokey, hoffered, -⟩ := of_decide_eq_true htest
      have hspells := (firstOffered_mem hoffered).2.2
      rw [heq] at hspells
      obtain rfl := hspells.eq (hpick name hmem hoffers hholds).2.2
      exact absurd hpubkey (by simp [hnokey])
    · rintro ⟨p, hp, hinstalled, hnevra⟩
      have hqueued := (h.erase p).mpr ⟨hp, hinstalled, name, hmem, hnevra⟩
      obtain ⟨-, -, other, -, hnokey, hspells⟩ := mem_qErase.mp hqueued
      obtain rfl := hspells.eq hnevra
      exact absurd hpubkey (by simp [hnokey])
  · rintro ⟨hoffered, hkeys, hremoved⟩
    refine ⟨fun name => ?_, ⟨firstOffered sack, ?_, fun name _ hoffers _ => ?_⟩, fun p => ?_⟩
    · rw [mem_notResolved]
      constructor
      · rintro ⟨hmem, hpubkey, hoffers⟩
        exact ⟨hmem, hpubkey, fun hholds => hoffers (hoffered name hmem hpubkey hholds), hoffers⟩
      · rintro ⟨hmem, hpubkey, -, hoffers⟩
        exact ⟨hmem, hpubkey, hoffers⟩
    · rw [qInstall_eq]
      refine congrArg _ (List.filter_congr fun name hmem => decide_eq_decide.mpr ?_)
      refine ⟨And.right, fun hwanted => ⟨?_, hwanted⟩⟩
      by_contra hpubkey
      exact hwanted.2 (hkeys name hmem (Bool.not_eq_false _ ▸ hpubkey) hwanted.1)
    · exact firstOffered_mem hoffers
    · rw [mem_qErase]
      constructor
      · rintro ⟨hp, hinstalled, name, hmem, -, hnevra⟩
        exact ⟨hp, hinstalled, name, hmem, hnevra⟩
      · rintro ⟨hp, hinstalled, name, hmem, hnevra⟩
        refine ⟨hp, hinstalled, name, hmem, ?_, hnevra⟩
        by_contra hpubkey
        exact hremoved name hmem (Bool.not_eq_false _ ▸ hpubkey) ⟨p, hp, hinstalled, hnevra⟩

/-- `TDNFHistoryResolve` builds the queues that the delta asks for. -/
def ResolvesExactly (sack : Sack) (rpms : AutoTable String) (hd : HistoryDelta) : Prop :=
  ∃ q, resolveQueues sack rpms hd = .ok q ∧
    ExactJobs sack (nevras rpms hd.addedIds) (nevras rpms hd.removedIds) q

/-- The queues are right where every added package that is installed is also available, and no
key is a package of the pool that would have to be installed or erased. -/
theorem resolvesExactly_iff (sack : Sack) (rpms : AutoTable String) (hd : HistoryDelta) :
    ResolvesExactly sack rpms hd ↔ LookupsSucceed sack rpms hd ∧
      (∀ name ∈ nevras rpms hd.addedIds, isPubkey name = false → sack.Holds name →
        sack.Offers name) ∧
        (∀ name ∈ nevras rpms hd.addedIds, isPubkey name = true → sack.Offers name →
          sack.Holds name) ∧
          ∀ name ∈ nevras rpms hd.removedIds, isPubkey name = true → ¬ sack.Holds name := by
  rw [ResolvesExactly, lookupsSucceed_iff, ← exactJobs_iff]
  constructor
  · rintro ⟨q, hok, hexact⟩
    obtain ⟨hadded, hremoved, rfl⟩ := resolveQueues_eq_ok_iff.mp hok
    exact ⟨⟨hadded, hremoved⟩, hexact⟩
  · rintro ⟨⟨hadded, hremoved⟩, hexact⟩
    exact ⟨_, resolveQueues_eq_ok_iff.mpr ⟨hadded, hremoved, rfl⟩, hexact⟩

/-- A pool in which "a-1-1.x86_64" is installed and nothing is available. -/
def installedOnly : Sack where
  repos := ownRepos
  installed := 0
  ids := [2]
  solvable := fun _ => ⟨"a".toList, "1-1".toList, "x86_64".toList, 0⟩
  nodup := List.nodup_singleton 2
  owned := by decide
  system := ownRepos_system
  cmdline := ownRepos_cmdline

/-- Redoing the installation of a package that is still installed, but no longer offered: it is
reported as not resolved. -/
theorem installed_not_resolved :
    ¬ ResolvesExactly installedOnly ((AutoTable.empty).insert "a-1-1.x86_64") ⟨[1], []⟩ := by
  rintro ⟨q, hok, hexact⟩
  have hqueues : resolveQueues installedOnly ((AutoTable.empty).insert "a-1-1.x86_64") ⟨[1], []⟩ =
      .ok ⟨[], [], ["a-1-1.x86_64".toList]⟩ := rfl
  obtain rfl := Except.ok.inj (hok.symm.trans hqueues)
  have hmissing := (hexact.notResolved "a-1-1.x86_64".toList).mp List.mem_cons_self
  exact hmissing.2.2.1 (by decide)

end Exactness

end Tdnf.Client
