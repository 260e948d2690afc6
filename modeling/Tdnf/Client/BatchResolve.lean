import Tdnf.Client.Resolve
import Tdnf.Library.Comparison

/-!
# Resolving many packages at once

A selection by advisories and a downgrade of everything look up one name after
another. Lookups that find nothing have error codes of several kinds, and only
some of these let the loop go on.
-/

namespace Tdnf.Client

open PathText Common Procedure Script Solv Comparison

section Queue

variable (host : AlterHost) (args : AlterArgs)

/-- The id that a lookup queues, for commands that queue at most one for each name -/
def queuedId : Lookup → Option ℕ
  | .error _ => none
  | .ok (nAlterType, pszPkgName) =>
    match singlePkgGoal host args nAlterType pszPkgName with
    | .ok ids => ids.head?
    | .error _ => none

/-- Looking up a name extends the goal queue. -/
def goalRules : Rules ResolveState Lookup ℕ :=
  ⟨ResolveState.queueGoal, ends host args, queuedId host args⟩

/-- A name queues one id at most. -/
def AtMostOne (nAlterType : AlterType) : Prop :=
  ∀ pszPkgName ids, singlePkgGoal host args nAlterType pszPkgName = .ok ids → ids.length ≤ 1

end Queue

section Loops

variable {host : AlterHost} {args : AlterArgs} {nAlterType : AlterType}

theorem alterGoal_of_singlePkgGoal {pszPkgName : Text} {ids : List ℕ}
    (h : singlePkgGoal host args nAlterType pszPkgName = .ok ids) :
    alterGoal host args nAlterType pszPkgName = .ok ids := by
  rw [singlePkgGoal_eq] at h
  split_ifs at h
  exact h

theorem atMostOne_upgrade : AtMostOne host args .upgrade := by
  intro pszPkgName ids h
  obtain ⟨dwHighestAvailable, -, h⟩ := exists_of_bind_ok (alterGoal_of_singlePkgGoal h)
  obtain ⟨dwUpgradePackage, -, h⟩ := exists_of_bind_ok h
  obtain rfl := Except.ok.inj h
  split <;> simp

theorem atMostOne_downgradeAll : AtMostOne host args .downgradeAll := by
  intro pszPkgName ids h
  obtain ⟨available, -, h⟩ := exists_of_bind_ok (alterGoal_of_singlePkgGoal h)
  obtain ⟨dwAvailableId, -, h⟩ := exists_of_bind_ok h
  obtain ⟨pszName, -, h⟩ := exists_of_bind_ok h
  obtain ⟨dwInstalledId, -, h⟩ := exists_of_bind_ok h
  obtain ⟨dwDownGradeId, -, h⟩ := exists_of_bind_ok h
  obtain rfl := Except.ok.inj h
  exact Nat.le_refl 1

/-- Storing a name does not touch the goal queue. -/
theorem addNotResolved_queueGoal (pszPkgName : Text) (s : ResolveState) :
    wp (addNotResolved pszPkgName) (fun _ t => t.queueGoal = s.queueGoal)
      (fun _ t => t.queueGoal = s.queueGoal) s := by
  rw [addNotResolved]
  by_cases hname : pszPkgName = []
  · rw [if_pos hname]
    rfl
  · rw [if_neg hname]
    obtain hlong | hcopy := allocateString_eq pszPkgName
    · rw [hlong]
      rfl
    · rw [hcopy]
      rfl

/-- Looking up one name queues what its goal is. -/
theorem queues_prepareSinglePkg (hone : AtMostOne host args nAlterType) (pszPkgName : Text) :
    Follows (goalRules host args) (prepareSinglePkg host args nAlterType pszPkgName)
      [.ok (nAlterType, pszPkgName)] := by
  intro s
  apply followsFrom_single
  cases hgoal : singlePkgGoal host args nAlterType pszPkgName with
  | ok ids =>
      obtain ⟨hrun, hends⟩ := prepareSinglePkg_ok hgoal
      have hhead : ids.head?.toList = ids := by
        have hlength := hone pszPkgName ids hgoal
        cases ids with
        | nil => rfl
        | cons id rest =>
            obtain rfl : rest = [] := List.eq_nil_of_length_eq_zero (by simpa using hlength)
            rfl
      rw [hrun, wp_modify]
      refine ⟨hends, ?_⟩
      simp only [goalRules, queuedId, hgoal, hhead, queuePush]
  | error e =>
      have hemits : (goalRules host args).emits (.ok (nAlterType, pszPkgName)) = none := by
        simp only [goalRules, queuedId, hgoal]
      rw [hemits]
      cases he : tolerated e with
      | true =>
          obtain ⟨hrun, hends⟩ := prepareSinglePkg_tolerated hgoal he
          rw [hrun, wp_pure]
          exact ⟨hends, (List.append_nil _).symm⟩
      | false =>
          by_cases hsearch : e = .noSearchResults
          · have hends : ends host args (.ok (nAlterType, pszPkgName)) = false := by
              simp [ends, hgoal, hsearch]
            have hrun : prepareSinglePkg host args nAlterType pszPkgName =
                orElse (addNotResolved pszPkgName) (pure ()) := by
              rw [prepareSinglePkg, hgoal, hsearch]
              rfl
            rw [hrun, wp_orElse]
            apply wp_mono (addNotResolved_queueGoal pszPkgName s)
            · exact fun _ t ht => ⟨hends, ht.trans (List.append_nil _).symm⟩
            · exact fun _ t ht => ⟨hends, ht.trans (List.append_nil _).symm⟩
          · obtain ⟨hrun, hends⟩ := prepareSinglePkg_error hgoal he hsearch
            rw [hrun, wp_throw]
            exact ⟨hends, rfl⟩

end Loops

/-! ## Upgrades of what advisories name -/

section Upgrades

variable (host : AlterHost) (args : AlterArgs)

/-- The package that is taken for the highest available version of a name, if there is one -/
def highestAvailable (pszPkgName : Text) : Option ℕ :=
  match host.bestAvailable pszPkgName with
  | some id => some id
  | none =>
    if host.select .available pszPkgName = [] then none
    else (host.bestSolvables (host.select .available pszPkgName)).head?

/-- A name that can be looked up -/
def Readable (pszPkgName : Text) : Prop :=
  pszPkgName ≠ [] ∧ allocateString pszPkgName = .ok pszPkgName

/-- The package is newer than each installed one that a query for the name selects. -/
def NewerThan (id : ℕ) (pszPkgName : Text) : Prop :=
  ∀ q ∈ host.select .installed pszPkgName, 0 < host.cmpEvr id q

/-- The name is installed, and this is its highest available version and newer. -/
def AskedFor (pszPkgName : Text) (id : ℕ) : Prop :=
  host.select .installed pszPkgName ≠ [] ∧ highestAvailable host pszPkgName = some id ∧
    NewerThan host id pszPkgName

/-- The best package for a known name is newer than what is installed under its own name. -/
def TakenFor (pszPkgName : Text) (id : ℕ) : Prop :=
  unknown host args pszPkgName = false ∧ highestAvailable host pszPkgName = some id ∧
    ∃ pszName, host.pkgName id = some pszName ∧ NewerThan host id pszName

/-- Whether the options select packages by their advisories. -/
def SelectsByAdvisories (nAlterType : AlterType) : Prop :=
  ∃ dwSecurity pszSeverity,
    getSecuritySeverityOption args.setOpt = .ok (dwSecurity, pszSeverity) ∧
      selectsUpdates nAlterType dwSecurity pszSeverity (getRebootRequiredOption args.setOpt) = true

/-- The names that advisories give lead to the solver, with the upgrades that they ask for. -/
def UpgradesExactly (nAlterType : AlterType) (names : List Text) : Prop :=
  ∀ s, ∃ s', (prepareAllPackages host args nAlterType).run s = .ok .upgrade s' ∧
    ∃ ids, s'.queueGoal = s.queueGoal ++ ids ∧
      ∀ id, id ∈ ids ↔ ∃ pszPkgName ∈ names, AskedFor host pszPkgName id

/-- No lookup for the name comes to nothing: it is known, there is a best package, and what that
package is called is installed. -/
def UpgradeFound (pszPkgName : Text) : Prop :=
  unknown host args pszPkgName = false ∧ ∃ id pszName,
    highestAvailable host pszPkgName = some id ∧ host.pkgName id = some pszName ∧
      Readable pszName ∧ host.select .installed pszName ≠ []

/-- Every name is found, or unknown and to be skipped; what is taken for a name that is unknown
or whose best package has another name is asked for by some name, and the other way round. -/
structure UpgradesFound (names : List Text) : Prop where
  readable : ∀ pszPkgName ∈ names, Readable pszPkgName
  found : ∀ pszPkgName ∈ names, UpgradeFound host args pszPkgName ∨
    unknown host args pszPkgName = true ∧ args.nSkipBroken = true
  other : ∀ pszPkgName ∈ names, ∀ id, highestAvailable host pszPkgName = some id →
    unknown host args pszPkgName = true ∨ host.pkgName id ≠ some pszPkgName →
    (TakenFor host args pszPkgName id → ∃ name ∈ names, AskedFor host name id) ∧
      (AskedFor host pszPkgName id → ∃ name ∈ names, TakenFor host args name id)

end Upgrades

section Lookup

variable {host : AlterHost} {args : AlterArgs} {pszPkgName : Text} {id : ℕ} {ids : List ℕ}

theorem findPkgByName_eq (scope : NameScope) (h : Readable pszPkgName) :
    findPkgByName host scope pszPkgName =
      if host.select scope pszPkgName = [] then .error .noMatch
      else .ok (host.select scope pszPkgName) := by
  rw [findPkgByName, if_neg h.1, h.2]
  rfl

theorem findHighestAvailable_eq (h : Readable pszPkgName) :
    findHighestAvailable host false pszPkgName =
      (highestAvailable host pszPkgName).elim (.error .noMatch) .ok := by
  rw [findHighestAvailable, if_neg h.1, findBestAvailable, if_neg h.1, highestAvailable,
    findPkgByName_eq .available h]
  cases host.bestAvailable pszPkgName with
  | some best => simp
  | none =>
      by_cases hnone : host.select .available pszPkgName = []
      · simp [hnone, bestOf, bind, Except.bind]
      · cases hbest : host.bestSolvables (host.select .available pszPkgName) with
        | nil =>
            simp [hnone, bestOf, bind, Except.bind, hbest, throw, throwThe,
              MonadExceptOf.throw]
        | cons best rest => simp [hnone, bestOf, bind, Except.bind, hbest, pure, Except.pure]

/-- A call fails with an error that is not absorbed. -/
def Fails {α : Type} (x : Except TdnfError α) : Prop :=
  ∃ e, x = .error e ∧ tolerated e = false ∧ e ≠ .noSearchResults

theorem Fails.bind {α β : Type} {x : Except TdnfError α} (h : Fails x)
    (f : α → Except TdnfError β) : Fails (x >>= f) := by
  obtain ⟨e, rfl, he, hsearch⟩ := h
  exact ⟨e, rfl, he, hsearch⟩

theorem poolString_fails {s : Option Text}
    (h : ¬ ∃ pszName, s = some pszName ∧ allocateString pszName = .ok pszName) :
    Fails (poolString s) := by
  cases s with
  | none => exact ⟨.noData, rfl, rfl, by decide⟩
  | some t =>
      obtain hlong | hcopy := allocateString_eq t
      · exact ⟨.stringTooLong, hlong, rfl, by decide⟩
      · exact absurd ⟨t, rfl, hcopy⟩ h

/-- The highest installed package is one of those that the query selects, and no other is
newer. -/
theorem findHighestInstalled_eq (hcmp : Lawful host.cmpEvr) (h : Readable pszPkgName)
    (hne : host.select .installed pszPkgName ≠ []) :
    ∃ q, findHighestOrLowestInstalled host true pszPkgName = .ok q ∧
      q ∈ host.select .installed pszPkgName ∧
        ∀ q' ∈ host.select .installed pszPkgName, host.cmpEvr q' q ≤ 0 := by
  obtain ⟨first, rest, hcons⟩ := List.exists_cons_of_ne_nil hne
  refine ⟨rest.foldl (fun best id => if 0 < host.cmpEvr id best then id else best) first, ?_, ?_⟩
  · rw [findHighestOrLowestInstalled, findPkgByName_eq .installed h, if_neg hne, hcons]
    rfl
  · rw [hcons]
    exact hcmp.foldl_highest first rest

theorem findHighestOrLowestInstalled_fails
    (h : ¬ (Readable pszPkgName ∧ host.select .installed pszPkgName ≠ []))
    (hcopy : allocateString pszPkgName = .ok pszPkgName) (dwFindHighest : Bool) :
    Fails (findHighestOrLowestInstalled host dwFindHighest pszPkgName) := by
  rw [findHighestOrLowestInstalled]
  by_cases hname : pszPkgName = []
  · rw [findPkgByName, if_pos hname]
    exact ⟨.invalidParameter, rfl, rfl, by decide⟩
  · have hnone : host.select .installed pszPkgName = [] := by
      by_contra hne
      exact h ⟨⟨hname, hcopy⟩, hne⟩
    rw [findPkgByName_eq .installed ⟨hname, hcopy⟩, if_pos hnone]
    exact ⟨.noMatch, rfl, rfl, by decide⟩

/-- Being newer than the highest installed package is being newer than all. -/
theorem newerThan_iff (hcmp : Lawful host.cmpEvr) {q : ℕ}
    (hq : q ∈ host.select .installed pszPkgName)
    (hhighest : ∀ q' ∈ host.select .installed pszPkgName, host.cmpEvr q' q ≤ 0) :
    0 < host.cmpEvr id q ↔ NewerThan host id pszPkgName := by
  constructor
  · intro hnewer q' hq'
    have hlt := hcmp.neg.lt_of_lt_of_le (a := id) (b := q) (c := q') (by omega) (by
      have hle := (hcmp.swap q' q).mp (hhighest q' hq')
      omega)
    omega
  · exact fun hnewer => hnewer q hq

/-- What is installed under the name of a package decides whether it is an upgrade. -/
theorem verifyUpgradePackage_ok (hcmp : Lawful host.cmpEvr) {pszName : Text}
    (hname : host.pkgName id = some pszName) (h : Readable pszName)
    (hne : host.select .installed pszName ≠ []) :
    ∃ up, verifyUpgradePackage host id = .ok up ∧ (up = true ↔ NewerThan host id pszName) := by
  obtain ⟨q, hq, hmem, hhighest⟩ := findHighestInstalled_eq hcmp h hne
  refine ⟨decide (0 < host.cmpEvr id q), ?_, ?_⟩
  · rw [verifyUpgradePackage, hname, poolString, h.2]
    simp only [bind, Except.bind, hq]
    rfl
  · rw [decide_eq_true_eq]
    exact newerThan_iff hcmp hmem hhighest

theorem verifyUpgradePackage_fails
    (h : ¬ ∃ pszName, host.pkgName id = some pszName ∧ Readable pszName ∧
      host.select .installed pszName ≠ []) : Fails (verifyUpgradePackage host id) := by
  rw [verifyUpgradePackage]
  by_cases hname : ∃ pszName, host.pkgName id = some pszName ∧
    allocateString pszName = .ok pszName
  · obtain ⟨pszName, hname, hcopy⟩ := hname
    rw [hname, poolString, hcopy]
    refine Fails.bind (findHighestOrLowestInstalled_fails ?_ hcopy true) _
    rintro ⟨hreadable, hne⟩
    exact h ⟨pszName, hname, hreadable, hne⟩
  · exact (poolString_fails hname).bind _

/-- What upgrading a known name queues -/
theorem addPackagesForUpgrade_ok (hcmp : Lawful host.cmpEvr) (h : Readable pszPkgName)
    {pszName : Text} (hhighest : highestAvailable host pszPkgName = some id)
    (hname : host.pkgName id = some pszName) (hreadable : Readable pszName)
    (hne : host.select .installed pszName ≠ []) :
    ∃ ids, addPackagesForUpgrade host pszPkgName = .ok ids ∧
      ∀ id', ids.head? = some id' ↔ id' = id ∧ NewerThan host id pszName := by
  obtain ⟨up, hup, hnewer⟩ := verifyUpgradePackage_ok hcmp hname hreadable hne
  refine ⟨if up then [id] else [], ?_, fun id' => ?_⟩
  · rw [addPackagesForUpgrade, findHighestAvailable_eq h, hhighest, Option.elim_some]
    simp only [bind, Except.bind, hup]
    rfl
  · cases up with
    | true => simpa [hnewer.mp rfl] using eq_comm
    | false => simp [show ¬ NewerThan host id pszName from fun hn => by simpa using hnewer.mpr hn]

/-- Where there is no highest available package, or nothing is installed under its name, an
upgrade of the name fails. -/
theorem addPackagesForUpgrade_fails (h : Readable pszPkgName)
    (hnot : ¬ ∃ id pszName, highestAvailable host pszPkgName = some id ∧
      host.pkgName id = some pszName ∧ Readable pszName ∧ host.select .installed pszName ≠ []) :
    Fails (addPackagesForUpgrade host pszPkgName) := by
  rw [addPackagesForUpgrade, findHighestAvailable_eq h]
  cases hhighest : highestAvailable host pszPkgName with
  | none => exact ⟨.noMatch, rfl, rfl, by decide⟩
  | some id =>
      refine Fails.bind (verifyUpgradePackage_fails ?_) _
      rintro ⟨pszName, hrest⟩
      exact hnot ⟨id, pszName, hhighest, hrest⟩

/-- When a run does not fail at a name, given when it does not fail at a known one -/
theorem not_ends_iff {nAlterType : AlterType} {Goes : Prop}
    (hknown : Goes → unknown host args pszPkgName = false)
    (hgoes : Readable pszPkgName → Goes →
      (∃ ids, alterGoal host args nAlterType pszPkgName = .ok ids) ∨
        ∃ e, alterGoal host args nAlterType pszPkgName = .error e ∧ tolerated e = true)
    (hfails : Readable pszPkgName → unknown host args pszPkgName = false → ¬ Goes →
      Fails (alterGoal host args nAlterType pszPkgName)) :
    ends host args (.ok (nAlterType, pszPkgName)) = false ↔ Readable pszPkgName ∧
      (Goes ∨ unknown host args pszPkgName = true ∧ args.nSkipBroken = true) := by
  have hgoal := singlePkgGoal_eq host args nAlterType pszPkgName
  rw [ends]
  by_cases hname : pszPkgName = []
  · rw [if_pos hname] at hgoal
    simp only [hgoal]
    simp [Readable, hname, tolerated]
  rw [if_neg hname] at hgoal
  by_cases hcopy : allocateString pszPkgName = .ok pszPkgName
  · have hreadable : Readable pszPkgName := ⟨hname, hcopy⟩
    rw [if_pos hcopy] at hgoal
    cases hunknown : unknown host args pszPkgName with
    | true =>
        have hnot : ¬ Goes := by
          intro h
          rw [hknown h] at hunknown
          cases hunknown
        rw [if_pos hunknown] at hgoal
        cases hskip : args.nSkipBroken with
        | true => simp [hgoal, hreadable, hskip, tolerated]
        | false => simp [hgoal, hreadable, hskip, tolerated, hnot]
    | false =>
        rw [if_neg (by simp [hunknown])] at hgoal
        by_cases h : Goes
        · obtain ⟨ids, hok⟩ | ⟨e, he, htolerated⟩ := hgoes hreadable h
          · simp [hgoal, hok, hreadable, h]
          · simp [hgoal, he, htolerated, hreadable, h]
        · obtain ⟨e, he, htolerated, hsearch⟩ := hfails hreadable hunknown h
          simp [hgoal, he, htolerated, hsearch, h]
  · rw [if_neg hcopy] at hgoal
    simp [hgoal, Readable, hcopy, tolerated]

/-- When a run does not fail at a name that is to be upgraded -/
theorem not_ends_upgrade_iff (hcmp : Lawful host.cmpEvr) :
    ends host args (.ok (.upgrade, pszPkgName)) = false ↔ Readable pszPkgName ∧
      (UpgradeFound host args pszPkgName ∨
        unknown host args pszPkgName = true ∧ args.nSkipBroken = true) := by
  refine not_ends_iff And.left (fun hreadable hfound => ?_) fun hreadable hunknown hnot => ?_
  · obtain ⟨-, id, pszName, hhighest, hpkg, hread, hne⟩ := hfound
    obtain ⟨ids, hids, -⟩ := addPackagesForUpgrade_ok hcmp hreadable hhighest hpkg hread hne
    exact .inl ⟨ids, hids⟩
  · exact addPackagesForUpgrade_fails hreadable fun hfound => hnot ⟨hunknown, hfound⟩

/-- What is queued for a name that is to be upgraded -/
theorem queuedId_upgrade_iff (hcmp : Lawful host.cmpEvr) (hreadable : Readable pszPkgName)
    (hcase : UpgradeFound host args pszPkgName ∨
      unknown host args pszPkgName = true ∧ args.nSkipBroken = true) :
    queuedId host args (.ok (.upgrade, pszPkgName)) = some id ↔
      TakenFor host args pszPkgName id := by
  have hgoal := singlePkgGoal_eq host args .upgrade pszPkgName
  rw [if_neg hreadable.1, if_pos hreadable.2] at hgoal
  rw [queuedId]
  obtain ⟨hunknown, best, pszName, hhighest, hname, hread, hne⟩ | ⟨hunknown, -⟩ := hcase
  · rw [if_neg (by simp [hunknown])] at hgoal
    obtain ⟨ids, hids, hhead⟩ := addPackagesForUpgrade_ok hcmp hreadable hhighest hname hread hne
    have hok : alterGoal host args .upgrade pszPkgName = .ok ids := hids
    simp only [hgoal, hok, hhead]
    constructor
    · rintro ⟨rfl, hnewer⟩
      exact ⟨hunknown, hhighest, pszName, hname, hnewer⟩
    · rintro ⟨-, hhighest', pszName', hname', hnewer⟩
      obtain rfl : best = id := Option.some.inj (hhighest.symm.trans hhighest')
      obtain rfl : pszName = pszName' := Option.some.inj (hname.symm.trans hname')
      exact ⟨rfl, hnewer⟩
  · rw [if_pos hunknown] at hgoal
    simp [hgoal, TakenFor, hunknown]

end Lookup

/-! ## The runs -/

section Runs

variable {host : AlterHost} {args : AlterArgs} {nAlterType : AlterType} {names : List Text}

/-- A selection by advisories looks up the names that these give. -/
theorem queues_prepareAllPackages (hselects : SelectsByAdvisories args nAlterType)
    (hnames : getUpdatePkgs host args = .ok names) (s : ResolveState) :
    ∃ x : ResolveProc PUnit, prepareAllPackages host args nAlterType =
        (x >>= fun _ => pure .upgrade) ∧
      FollowsFrom (goalRules host args) s x (names.map fun name => .ok (.upgrade, name)) := by
  obtain ⟨dwSecurity, pszSeverity, hopts, hselect⟩ := hselects
  refine ⟨names.forM (prepareSinglePkg host args .upgrade), ?_, ?_⟩
  · have hall : nAlterType ≠ .downgradeAll := by
      rintro rfl
      simp [selectsUpdates] at hselect
    have horphans : nAlterType ≠ .autoEraseAll := by
      rintro rfl
      simp [selectsUpdates] at hselect
    rw [prepareAllPackages, if_neg hall, if_neg horphans, prepareNames, hopts, hnames]
    change (if _ then _ else _) = _
    rw [if_pos hselect]
    rfl
  · rw [List.map_eq_flatMap]
    exact follows_forM (queues_prepareSinglePkg atMostOne_upgrade) names s

/-- A procedure that follows a script succeeds where the script goes through, and has then
queued what its events queue. -/
theorem run_follows {x : ResolveProc PUnit} {s : ResolveState} {l : List Lookup}
    (h : FollowsFrom (goalRules host args) s x l) (b : AlterType) :
    (∃ t, (x >>= fun _ => pure b).run s = .ok b t) ↔ Goes (goalRules host args) l := by
  constructor
  · rintro ⟨t, hrun⟩
    obtain ⟨_, u, hx, -⟩ := run_bind_eq_ok.mp hrun
    exact (wp_ok h hx).1
  · intro hgoes
    cases hx : x.run s with
    | ok a t => exact ⟨t, run_bind_ok hx⟩
    | error e t => exact absurd hgoes (wp_error h hx).1

theorem run_follows_queue {x : ResolveProc PUnit} {s t : ResolveState} {l : List Lookup}
    (h : FollowsFrom (goalRules host args) s x l) {b : AlterType}
    (hrun : (x >>= fun _ => pure b).run s = .ok b t) :
    t.queueGoal = s.queueGoal ++ l.filterMap (queuedId host args) := by
  obtain ⟨_, u, hx, hpure⟩ := run_bind_eq_ok.mp hrun
  obtain ⟨hgoes, hwrites⟩ := wp_ok h hx
  cases hpure
  rw [Writes, emitted, reached_of_goes hgoes] at hwrites
  exact hwrites

/-- The upgrades that advisories ask for reach the solver if and only if no lookup of a name they
give comes to nothing. -/
theorem upgradesExactly_of_selects (hcmp : Lawful host.cmpEvr)
    (hselects : SelectsByAdvisories args nAlterType)
    (hnames : getUpdatePkgs host args = .ok names) :
    UpgradesExactly host args nAlterType names ↔ UpgradesFound host args names := by
  have hgoes : Goes (goalRules host args) (names.map fun name => .ok (.upgrade, name)) ↔
      ∀ name ∈ names, Readable name ∧ (UpgradeFound host args name ∨
        unknown host args name = true ∧ args.nSkipBroken = true) := by
    simp only [Goes, List.forall_mem_map, goalRules, not_ends_upgrade_iff hcmp]
  have hqueued : (∀ name ∈ names, Readable name ∧ (UpgradeFound host args name ∨
      unknown host args name = true ∧ args.nSkipBroken = true)) → ∀ id,
      (id ∈ (names.map fun name => .ok (.upgrade, name)).filterMap (queuedId host args) ↔
        ∃ name ∈ names, TakenFor host args name id) := by
    intro hall id
    rw [List.filterMap_map, List.mem_filterMap]
    constructor
    · rintro ⟨name, hmem, hid⟩
      obtain ⟨hreadable, hcase⟩ := hall name hmem
      exact ⟨name, hmem, (queuedId_upgrade_iff hcmp hreadable hcase).mp hid⟩
    · rintro ⟨name, hmem, hid⟩
      obtain ⟨hreadable, hcase⟩ := hall name hmem
      exact ⟨name, hmem, (queuedId_upgrade_iff hcmp hreadable hcase).mpr hid⟩
  constructor
  · intro h
    obtain ⟨t, hrun, ids, hids, hexact⟩ := h ⟨[], []⟩
    obtain ⟨x, hx, hfollows⟩ := queues_prepareAllPackages hselects hnames ⟨[], []⟩
    rw [hx] at hrun
    have hall := hgoes.mp ((run_follows hfollows .upgrade).mp ⟨t, hrun⟩)
    have hqueue := run_follows_queue hfollows hrun
    obtain rfl := List.append_cancel_left (hids.symm.trans hqueue)
    have hsame : ∀ id, (∃ name ∈ names, TakenFor host args name id) ↔
        ∃ name ∈ names, AskedFor host name id :=
      fun id => (hqueued hall id).symm.trans (hexact id)
    exact ⟨fun name hmem => (hall name hmem).1, fun name hmem => (hall name hmem).2,
      fun name hmem id _ _ => ⟨fun htaken => (hsame id).mp ⟨name, hmem, htaken⟩,
        fun hasked => (hsame id).mpr ⟨name, hmem, hasked⟩⟩⟩
  · intro h s
    have hall : ∀ name ∈ names, Readable name ∧ (UpgradeFound host args name ∨
        unknown host args name = true ∧ args.nSkipBroken = true) :=
      fun name hmem => ⟨h.readable name hmem, h.found name hmem⟩
    obtain ⟨x, hx, hfollows⟩ := queues_prepareAllPackages hselects hnames s
    obtain ⟨t, hrun⟩ := (run_follows hfollows .upgrade).mpr (hgoes.mpr hall)
    refine ⟨t, by rw [hx]; exact hrun, _, run_follows_queue hfollows hrun, fun id => ?_⟩
    rw [hqueued hall]
    constructor
    · rintro ⟨name, hmem, htaken⟩
      by_cases hother : unknown host args name = true ∨ host.pkgName id ≠ some name
      · exact (h.other name hmem id htaken.2.1 hother).1 htaken
      · obtain ⟨hknown, hown⟩ := not_or.mp hother
        obtain ⟨-, hhighest, pszName, hname, hnewer⟩ := htaken
        obtain ⟨-, best, pszName', hbest, hname', -, hne⟩ :=
          (h.found name hmem).resolve_right fun hskip => hknown hskip.1
        obtain rfl : best = id := Option.some.inj (hbest.symm.trans hhighest)
        obtain rfl : pszName' = name := Option.some.inj (hname'.symm.trans (not_not.mp hown))
        obtain rfl : pszName = pszName' := Option.some.inj (hname.symm.trans hname')
        exact ⟨pszName, hmem, hne, hhighest, hnewer⟩
    · rintro ⟨name, hmem, hasked⟩
      by_cases hother : unknown host args name = true ∨ host.pkgName id ≠ some name
      · exact (h.other name hmem id hasked.2.1 hother).2 hasked
      · obtain ⟨hknown, hown⟩ := not_or.mp hother
        exact ⟨name, hmem, by simpa using hknown, hasked.2.1, name, not_not.mp hown, hasked.2.2⟩

end Runs

/-! ## Downgrades of everything -/

section Downgrades

variable (host : AlterHost) (args : AlterArgs)

/-- `downgrade` without arguments -/
def NoArguments : Prop :=
  args.ppszCmds.drop 1 = [] ∧ ∃ opts, getSecuritySeverityOption args.setOpt = .ok opts

/-- The package is to be replaced by an older one that is available. -/
def DowngradePath (p id : ℕ) : Prop :=
  ∃ pszName, host.pkgName p = some pszName ∧ unknown host args pszName = false ∧
    addPackagesForDowngrade host pszName = .ok [id]

/-- A downgrade of all installed packages leads to the solver, with those packages that have a
downgrade path. -/
def DowngradesAll : Prop :=
  ∀ s, ∃ s', (prepareAllPackages host args .downgradeAll).run s = .ok .downgradeAll s' ∧
    ∃ ids, s'.queueGoal = s.queueGoal ++ ids ∧
      ∀ id, id ∈ ids ↔ ∃ p ∈ host.installed, DowngradePath host args p id

/-- The name is known, some repository offers it, and what is offered is installed under its
own name. -/
def Offered (pszPkgName : Text) : Prop :=
  unknown host args pszPkgName = false ∧ ∃ id rest pszName,
    host.select .available pszPkgName = id :: rest ∧ host.pkgName id = some pszName ∧
      Readable pszName ∧ host.select .installed pszName ≠ []

/-- Some package is installed, and each installed one is offered, or unknown and to be skipped. -/
def AllOffered : Prop :=
  host.installed ≠ [] ∧ ∀ p ∈ host.installed, ∃ pszName, host.pkgName p = some pszName ∧
    Readable pszName ∧ (Offered host args pszName ∨
      unknown host args pszName = true ∧ args.nSkipBroken = true)

end Downgrades

section DowngradeRuns

variable {host : AlterHost} {args : AlterArgs} {pszPkgName : Text} {id : ℕ}

/-- What is offered is downgraded, or has no downgrade path. -/
theorem addPackagesForDowngrade_of_offered (h : Readable pszPkgName)
    (hoffered : Offered host args pszPkgName) :
    (∃ id, addPackagesForDowngrade host pszPkgName = .ok [id]) ∨
      addPackagesForDowngrade host pszPkgName = .error .noDowngradePath := by
  obtain ⟨-, id, rest, pszName, hselect, hname, hreadable, hne⟩ := hoffered
  have hinstalled : ∃ q, findHighestOrLowestInstalled host false pszName = .ok q := by
    obtain ⟨first, others, hcons⟩ := List.exists_cons_of_ne_nil hne
    rw [findHighestOrLowestInstalled, findPkgByName_eq .installed hreadable, if_neg hne, hcons]
    exact ⟨_, rfl⟩
  obtain ⟨q, hq⟩ := hinstalled
  rw [addPackagesForDowngrade, findPkgByName_eq .available h, hselect,
    if_neg (List.cons_ne_nil _ _)]
  simp only [bind, Except.bind, getPackageId, List.getElem?_cons_zero, hname, poolString,
    hreadable.2, hq, packageGetDowngrade]
  split
  · next heq =>
      right
      split at heq
      · cases heq
        rfl
      · cases heq
  · next heq =>
      left
      exact ⟨_, rfl⟩

/-- What no repository offers, or what is offered under a name that is not installed, fails. -/
theorem addPackagesForDowngrade_fails (h : Readable pszPkgName)
    (hnot : ¬ ∃ id rest pszName, host.select .available pszPkgName = id :: rest ∧
      host.pkgName id = some pszName ∧ Readable pszName ∧ host.select .installed pszName ≠ []) :
    Fails (addPackagesForDowngrade host pszPkgName) := by
  rw [addPackagesForDowngrade, findPkgByName_eq .available h]
  cases hselect : host.select .available pszPkgName with
  | nil => exact ⟨.noMatch, rfl, rfl, by decide⟩
  | cons id rest =>
      rw [if_neg (List.cons_ne_nil _ _)]
      by_cases hname : ∃ pszName, host.pkgName id = some pszName ∧
        allocateString pszName = .ok pszName
      · obtain ⟨pszName, hname, hcopy⟩ := hname
        have hfails : Fails (findHighestOrLowestInstalled host false pszName) :=
          findHighestOrLowestInstalled_fails
            (fun hok => hnot ⟨id, rest, pszName, hselect, hname, hok.1, hok.2⟩) hcopy false
        have hpool : poolString (host.pkgName id) = .ok pszName := by
          rw [hname, poolString, hcopy]
        change Fails (poolString (host.pkgName id) >>= _)
        rw [hpool]
        exact hfails.bind _
      · exact (poolString_fails hname).bind _

/-- When a run does not fail at a name that is to be downgraded -/
theorem not_ends_downgrade_iff :
    ends host args (.ok (.downgradeAll, pszPkgName)) = false ↔ Readable pszPkgName ∧
      (Offered host args pszPkgName ∨
        unknown host args pszPkgName = true ∧ args.nSkipBroken = true) := by
  refine not_ends_iff And.left (fun hreadable hoffered => ?_) fun hreadable hunknown hnot => ?_
  · obtain ⟨id, hok⟩ | hnopath := addPackagesForDowngrade_of_offered hreadable hoffered
    · exact .inl ⟨[id], hok⟩
    · exact .inr ⟨.noDowngradePath, hnopath, by decide⟩
  · exact addPackagesForDowngrade_fails hreadable fun hfound => hnot ⟨hunknown, hfound⟩

/-- What is queued for a name that is to be downgraded -/
theorem queuedId_downgrade_iff (hreadable : Readable pszPkgName) :
    queuedId host args (.ok (.downgradeAll, pszPkgName)) = some id ↔
      unknown host args pszPkgName = false ∧
        addPackagesForDowngrade host pszPkgName = .ok [id] := by
  have hgoal := singlePkgGoal_eq host args .downgradeAll pszPkgName
  rw [if_neg hreadable.1, if_pos hreadable.2] at hgoal
  have hsame : alterGoal host args .downgradeAll pszPkgName =
    addPackagesForDowngrade host pszPkgName := rfl
  rw [queuedId]
  cases hunknown : unknown host args pszPkgName with
  | true =>
      rw [if_pos hunknown] at hgoal
      simp [hgoal]
  | false =>
      rw [if_neg (by simp [hunknown]), hsame] at hgoal
      rw [hgoal]
      cases hids : addPackagesForDowngrade host pszPkgName with
      | error e => simp
      | ok ids =>
          have hmost : AtMostOne host args .downgradeAll := atMostOne_downgradeAll
          have hlength := hmost pszPkgName ids (hgoal.trans hids)
          cases ids with
          | nil => simp
          | cons first rest =>
              obtain rfl : rest = [] := List.eq_nil_of_length_eq_zero (by simpa using hlength)
              simp

/-- The loop over the installed packages -/
theorem queues_filterPackages (hargs : NoArguments args) (hne : host.installed ≠ [])
    (s : ResolveState) : ∃ x : ResolveProc PUnit,
      prepareAllPackages host args .downgradeAll = (x >>= fun _ => pure .downgradeAll) ∧
        FollowsFrom (goalRules host args) s x
          (host.installed.flatMap (idLookups host .downgradeAll)) := by
  obtain ⟨hcmds, opts, hopts⟩ := hargs
  refine ⟨host.installed.forM (preparePkgId host args .downgradeAll), ?_, ?_⟩
  · have hfilter : filterPackages host args .downgradeAll =
        host.installed.forM (preparePkgId host args .downgradeAll) := by
      rw [filterPackages, getQueryResult, if_neg hne]
    have hnothing : prepareNames host args .downgradeAll = pure .downgradeAll := by
      rw [prepareNames, hopts, hcmds]
      rfl
    rw [prepareAllPackages, if_pos rfl, hfilter, hnothing]
  · refine follows_forM (fun id => ?_) host.installed s
    intro t
    rw [preparePkgId, idLookups]
    cases poolString (host.pkgName id) with
    | error e => exact follows_throw (r := goalRules host args) _ rfl t
    | ok pszName => exact queues_prepareSinglePkg atMostOne_downgradeAll pszName t

/-- Where the loop over the installed packages goes through -/
theorem goes_installed_iff :
    Goes (goalRules host args) (host.installed.flatMap (idLookups host .downgradeAll)) ↔
      ∀ p ∈ host.installed, ∃ pszName, host.pkgName p = some pszName ∧ Readable pszName ∧
        (Offered host args pszName ∨
          unknown host args pszName = true ∧ args.nSkipBroken = true) := by
  have hround : ∀ p, Goes (goalRules host args) (idLookups host .downgradeAll p) ↔
      ∃ pszName, host.pkgName p = some pszName ∧ Readable pszName ∧
        (Offered host args pszName ∨
          unknown host args pszName = true ∧ args.nSkipBroken = true) := by
    intro p
    rw [idLookups]
    cases hname : host.pkgName p with
    | none => simp [poolString, afterCall, Goes, goalRules, ends]
    | some pszName =>
        obtain hlong | hcopy := allocateString_eq pszName
        · simp [poolString, hlong, afterCall, Goes, goalRules, ends, Readable]
        · simp only [poolString, hcopy, afterCall, Goes, goalRules, List.mem_singleton,
            forall_eq, not_ends_downgrade_iff, Option.some.injEq, exists_eq_left']
  simp only [← hround, Goes, List.mem_flatMap, forall_exists_index, and_imp]
  exact ⟨fun h p hp l hl => h l p hp hl, fun h l p hp hl => h p hp l hl⟩

/-- A downgrade of everything reaches the solver if and only if some package is installed and all
of them are offered. -/
theorem downgradesAll_of_noArguments (hargs : NoArguments args) :
    DowngradesAll host args ↔ AllOffered host args := by
  by_cases hne : host.installed = []
  · constructor
    · intro h
      obtain ⟨t, hrun, -⟩ := h ⟨[], []⟩
      rw [prepareAllPackages, if_pos rfl, filterPackages, getQueryResult, if_pos hne] at hrun
      cases hrun
    · exact fun h => absurd hne h.1
  have hqueued : (∀ p ∈ host.installed, ∃ pszName, host.pkgName p = some pszName ∧
      Readable pszName ∧ (Offered host args pszName ∨
        unknown host args pszName = true ∧ args.nSkipBroken = true)) → ∀ id,
      (id ∈ (host.installed.flatMap (idLookups host .downgradeAll)).filterMap
        (queuedId host args) ↔ ∃ p ∈ host.installed, DowngradePath host args p id) := by
    intro hall id
    simp only [List.mem_filterMap, List.mem_flatMap]
    constructor
    · rintro ⟨l, ⟨p, hp, hl⟩, hid⟩
      obtain ⟨pszName, hname, hreadable, -⟩ := hall p hp
      rw [idLookups, hname, poolString, hreadable.2, afterCall, List.mem_singleton] at hl
      subst hl
      obtain ⟨hunknown, hpath⟩ := (queuedId_downgrade_iff hreadable).mp hid
      exact ⟨p, hp, pszName, hname, hunknown, hpath⟩
    · rintro ⟨p, hp, pszName, hname, hunknown, hpath⟩
      obtain ⟨pszName', hname', hreadable, -⟩ := hall p hp
      obtain rfl : pszName = pszName' := Option.some.inj (hname.symm.trans hname')
      refine ⟨.ok (.downgradeAll, pszName), ⟨p, hp, ?_⟩,
        (queuedId_downgrade_iff hreadable).mpr ⟨hunknown, hpath⟩⟩
      rw [idLookups, hname, poolString, hreadable.2, afterCall, List.mem_singleton]
  constructor
  · intro h
    obtain ⟨t, hrun, -⟩ := h ⟨[], []⟩
    obtain ⟨x, hx, hfollows⟩ := queues_filterPackages hargs hne ⟨[], []⟩
    rw [hx] at hrun
    exact ⟨hne, goes_installed_iff.mp ((run_follows hfollows .downgradeAll).mp ⟨t, hrun⟩)⟩
  · rintro ⟨-, hall⟩ s
    obtain ⟨x, hx, hfollows⟩ := queues_filterPackages hargs hne s
    obtain ⟨t, hrun⟩ := (run_follows hfollows .downgradeAll).mpr (goes_installed_iff.mpr hall)
    refine ⟨t, by rw [hx]; exact hrun, _, run_follows_queue hfollows hrun, hqueued hall⟩

end DowngradeRuns

/-! ## Both commands -/

/-- The packages of a name: "vim" is installed and offered in a newer version, "local" is only
installed and "emacs" only offered. -/
def threeNames (scope : NameScope) (pszName : Text) : List ℕ :=
  let ids := if pszName = "vim".toList then [1, 2]
    else if pszName = "local".toList then [3]
    else if pszName = "emacs".toList then [4] else []
  match scope with
  | .installed => ids.filter fun id => id = 1 || id = 3
  | .available => ids.filter fun id => id = 2 || id = 4
  | _ => ids

/-- A system with an advisory for an update of "vim" that also gives other names -/
def withAdvisory (installed : List ℕ) (collection : List UpdateInfoPkg) : AlterHost :=
  { twoRequirements with
    update := ⟨.ok [⟨"vim".toList, some "noarch".toList, "1-1".toList⟩],
      [⟨some "security".toList, none, false, none, none, 0, collection⟩],
      fun _ _ => 1, fun _ _ => false, fun _ => none⟩
    select := threeNames
    installed := installed
    pkgName := fun id => some
      (if id = 3 then "local".toList else if id = 4 then "emacs".toList else "vim".toList)
    cmpEvr := fun p q => (p : ℤ) - q
    bestAvailable := fun pszName => (threeNames .all pszName).getLast? }

def vimUpdate : UpdateInfoPkg :=
  ⟨some "vim".toList, some "2-1".toList, some "noarch".toList, none⟩

def emacsUpdate : UpdateInfoPkg :=
  ⟨some "emacs".toList, some "2-1".toList, some "noarch".toList, none⟩

/-- `update --security` -/
def updateSecurity : AlterArgs :=
  ⟨["update".toList], [⟨"security", "1".toList⟩], false, false, false, false⟩

/-- `downgrade` -/
def downgradeAllArgs : AlterArgs := ⟨["downgrade".toList], [], false, false, false, false⟩

theorem lawful_withAdvisory (installed : List ℕ) (collection : List UpdateInfoPkg) :
    Lawful (withAdvisory installed collection).cmpEvr where
  swap := by
    intro a b
    simp only [withAdvisory]
    omega
  trans := by
    intro a b c
    simp only [withAdvisory]
    omega

end Tdnf.Client
