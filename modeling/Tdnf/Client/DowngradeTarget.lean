import Tdnf.Client.BatchResolve

/-!
# The target of a downgrade

`TDNFAddPackagesForDowngrade` looks for the lowest installed version of a name and
then for the highest available version below it. Both loops keep their choice in
an id, where 0 stands for no choice. The id that is found goes to the goal queue.
-/

namespace Tdnf.Client.DowngradeTarget

open PathText Common Procedure Comparison

section Code

variable (host : AlterHost)

/-- One round of the loop in `SolvFindHighestOrLowestInstalled` -/
def installedRound (dwFindHighest : Bool) (dwHighestOrLowestInstalled dwInstalledId : ℕ) : ℕ :=
  let dwEvrCompare := host.cmpEvr dwInstalledId dwHighestOrLowestInstalled
  if dwFindHighest then
    if 0 < dwEvrCompare then dwInstalledId else dwHighestOrLowestInstalled
  else
    if dwEvrCompare < 0 then dwInstalledId else dwHighestOrLowestInstalled

/-- `SolvFindHighestOrLowestInstalled` -/
def findHighestOrLowestInstalled (dwFindHighest : Bool) (pszPkgName : Text) :
    Except TdnfError ℕ := do
  let installed ← findPkgByName host .installed pszPkgName
  let first ← getPackageId installed 0
  if first ≠ 0 then
    return (installed.drop 1).foldl (installedRound host dwFindHighest) first
  else
    return first

/-- `SolvFindLowestInstalled` -/
def findLowestInstalled (pszPkgName : Text) : Except TdnfError ℕ :=
  findHighestOrLowestInstalled host false pszPkgName

/-- One round of the loop in `TDNFPackageGetDowngrade`; `SolvCmpEvr` only fails without a sack. -/
def downgradeRound (dwInstalled dwDownGradeId dwAvailableId : ℕ) : ℕ :=
  if host.cmpEvr dwAvailableId dwInstalled < 0 then
    if dwDownGradeId = 0 then dwAvailableId
    else if 0 < host.cmpEvr dwAvailableId dwDownGradeId then dwAvailableId else dwDownGradeId
  else dwDownGradeId

/-- `TDNFPackageGetDowngrade` -/
def packageGetDowngrade (dwInstalled : ℕ) (available : List ℕ) : Except TdnfError ℕ :=
  let dwDownGradeId := available.foldl (downgradeRound host dwInstalled) 0
  if dwDownGradeId = 0 then .error .noDowngradePath else .ok dwDownGradeId

/-- `TDNFAddPackagesForDowngrade` on the goal queue -/
def addPackagesForDowngrade (pszPkgName : Text) : Proc TdnfError (List ℕ) Unit := do
  let available ← fromExcept (findPkgByName host .available pszPkgName)
  let dwAvailableId ← fromExcept (getPackageId available 0)
  let pszName ← fromExcept (poolString (host.pkgName dwAvailableId))
  let dwInstalledId ← fromExcept (findLowestInstalled host pszName)
  let dwDownGradeId ← fromExcept (packageGetDowngrade host dwInstalledId available)
  modify fun queueGoal => queueGoal ++ [dwDownGradeId]

end Code

/-! ## What the target is -/

section Targets

variable (host : AlterHost)

/-- Queries select packages, and 0 is not the id of one. -/
def PositiveIds : Prop := ∀ scope pszPkgName, 0 ∉ host.select scope pszPkgName

/-- An installed package of the name, and none of them is lower -/
def LowestInstalled (pszName : Text) (p : ℕ) : Prop :=
  p ∈ host.select .installed pszName ∧
    ∀ q ∈ host.select .installed pszName, host.cmpEvr p q ≤ 0

/-- The package is strictly below the lowest installed one of the name. -/
def BelowInstalled (pszName : Text) (id : ℕ) : Prop :=
  ∃ p, LowestInstalled host pszName p ∧ host.cmpEvr id p < 0

/-- An available package of maximal version among those below the lowest installed one -/
def IsTarget (pszPkgName pszName : Text) (id : ℕ) : Prop :=
  id ∈ host.select .available pszPkgName ∧ BelowInstalled host pszName id ∧
    ∀ other ∈ host.select .available pszPkgName, BelowInstalled host pszName other →
      host.cmpEvr other id ≤ 0

/-- The name that is given has available packages, and the name of these has installed ones. -/
def AvailableAndInstalled (pszPkgName pszName : Text) : Prop :=
  (Readable pszPkgName ∧ host.select .available pszPkgName ≠ []) ∧
    Readable pszName ∧ host.select .installed pszName ≠ []

/-- What the loop over the available packages has found in those that it has seen -/
def Found (dwInstalled : ℕ) (seen : List ℕ) (dwDownGradeId : ℕ) : Prop :=
  if dwDownGradeId = 0 then ∀ id ∈ seen, ¬ host.cmpEvr id dwInstalled < 0
  else dwDownGradeId ∈ seen ∧ host.cmpEvr dwDownGradeId dwInstalled < 0 ∧
    ∀ id ∈ seen, host.cmpEvr id dwInstalled < 0 → host.cmpEvr id dwDownGradeId ≤ 0

end Targets

section Loops

variable {host : AlterHost} {dwInstalled dwDownGradeId id : ℕ} {seen : List ℕ}

/-- One round of the loop over the available packages -/
theorem found_downgradeRound (hcmp : Lawful host.cmpEvr) (hid : id ≠ 0)
    (h : Found host dwInstalled seen dwDownGradeId) :
    Found host dwInstalled (seen ++ [id]) (downgradeRound host dwInstalled dwDownGradeId id) := by
  rw [downgradeRound]
  by_cases hbelow : host.cmpEvr id dwInstalled < 0
  · rw [if_pos hbelow]
    by_cases hnone : dwDownGradeId = 0
    · rw [if_pos hnone]
      rw [Found, if_pos hnone] at h
      rw [Found, if_neg hid]
      refine ⟨List.mem_append_right _ (List.mem_singleton_self id), hbelow, fun other hother => ?_⟩
      obtain hseen | hlast := List.mem_append.mp hother
      · exact fun hlt => absurd hlt (h other hseen)
      · rw [List.mem_singleton.mp hlast]
        exact fun _ => Int.le_of_eq (hcmp.self id)
    · rw [if_neg hnone]
      rw [Found, if_neg hnone] at h
      obtain ⟨hmem, hlt, hmax⟩ := h
      by_cases hhigher : 0 < host.cmpEvr id dwDownGradeId
      · rw [if_pos hhigher, Found, if_neg hid]
        refine ⟨List.mem_append_right _ (List.mem_singleton_self id), hbelow,
          fun other hother hotherlt => ?_⟩
        obtain hseen | hlast := List.mem_append.mp hother
        · have hle : host.cmpEvr dwDownGradeId id ≤ 0 :=
            (hcmp.swap dwDownGradeId id).mpr (Int.le_of_lt hhigher)
          exact hcmp.trans other dwDownGradeId id (hmax other hseen hotherlt) hle
        · rw [List.mem_singleton.mp hlast]
          exact Int.le_of_eq (hcmp.self id)
      · rw [if_neg hhigher, Found, if_neg hnone]
        refine ⟨List.mem_append_left _ hmem, hlt, fun other hother hotherlt => ?_⟩
        obtain hseen | hlast := List.mem_append.mp hother
        · exact hmax other hseen hotherlt
        · rw [List.mem_singleton.mp hlast]
          exact Int.not_lt.mp hhigher
  · rw [if_neg hbelow]
    by_cases hnone : dwDownGradeId = 0
    · rw [Found, if_pos hnone] at h ⊢
      intro other hother
      obtain hseen | hlast := List.mem_append.mp hother
      · exact h other hseen
      · rw [List.mem_singleton.mp hlast]
        exact hbelow
    · rw [Found, if_neg hnone] at h ⊢
      obtain ⟨hmem, hlt, hmax⟩ := h
      refine ⟨List.mem_append_left _ hmem, hlt, fun other hother hotherlt => ?_⟩
      obtain hseen | hlast := List.mem_append.mp hother
      · exact hmax other hseen hotherlt
      · rw [List.mem_singleton.mp hlast] at hotherlt
        exact absurd hotherlt hbelow

/-- The whole loop over the available packages -/
theorem found_foldl (hcmp : Lawful host.cmpEvr) {available : List ℕ} (hids : 0 ∉ available)
    (h : Found host dwInstalled seen dwDownGradeId) :
    Found host dwInstalled (seen ++ available)
      (available.foldl (downgradeRound host dwInstalled) dwDownGradeId) := by
  induction available generalizing seen dwDownGradeId with
  | nil => simpa using h
  | cons id available ih =>
      have hid : id ≠ 0 := fun hzero => hids (by simp [hzero])
      have hrest := ih (fun hzero => hids (List.mem_cons_of_mem id hzero))
        (found_downgradeRound hcmp hid h)
      rwa [List.append_assoc, List.singleton_append] at hrest

theorem packageGetDowngrade_eq_ok (hcmp : Lawful host.cmpEvr) {available : List ℕ}
    (hids : 0 ∉ available) (h : packageGetDowngrade host dwInstalled available = .ok id) :
    id ∈ available ∧ host.cmpEvr id dwInstalled < 0 ∧
      ∀ other ∈ available, host.cmpEvr other dwInstalled < 0 → host.cmpEvr other id ≤ 0 := by
  have hfound : Found host dwInstalled [] 0 := by simp [Found]
  have hall := found_foldl hcmp hids hfound
  simp only [packageGetDowngrade] at h
  split at h
  · cases h
  · next hsome =>
      cases h
      rwa [Found, if_neg hsome, List.nil_append] at hall

theorem packageGetDowngrade_eq_error (hcmp : Lawful host.cmpEvr) {available : List ℕ}
    {e : TdnfError} (hids : 0 ∉ available)
    (h : packageGetDowngrade host dwInstalled available = .error e) :
    e = .noDowngradePath ∧ ∀ other ∈ available, ¬ host.cmpEvr other dwInstalled < 0 := by
  have hfound : Found host dwInstalled [] 0 := by simp [Found]
  have hall := found_foldl hcmp hids hfound
  simp only [packageGetDowngrade] at h
  split at h
  · next hnone =>
      cases h
      rw [Found, if_pos hnone, List.nil_append] at hall
      exact ⟨rfl, hall⟩
  · cases h

/-- The pass that keeps the lower of two packages ends with a lowest one. -/
theorem findLowestInstalled_eq (hcmp : Lawful host.cmpEvr) (hids : PositiveIds host)
    {pszName : Text} (h : Readable pszName) (hne : host.select .installed pszName ≠ []) :
    ∃ p, findLowestInstalled host pszName = .ok p ∧ LowestInstalled host pszName p := by
  obtain ⟨first, rest, hcons⟩ := List.exists_cons_of_ne_nil hne
  have hfirst : first ≠ 0 := by
    intro hzero
    refine hids .installed pszName ?_
    rw [hcons, hzero]
    exact List.mem_cons_self
  have hround : installedRound host false =
      fun best x => if 0 < -host.cmpEvr x best then x else best := by
    funext best x
    simp only [installedRound, Int.neg_pos, Bool.false_eq_true, if_false]
  obtain ⟨hmem, hlowest⟩ := hcmp.neg.foldl_highest first rest
  rw [← hround] at hmem hlowest
  refine ⟨rest.foldl (installedRound host false) first, ?_, ?_⟩
  · rw [findLowestInstalled, findHighestOrLowestInstalled, findPkgByName_eq .installed h,
      if_neg hne, hcons]
    simp [bind, Except.bind, getPackageId, hfirst, pure, Except.pure]
  · refine ⟨by rw [hcons]; exact hmem, fun q hq => ?_⟩
    rw [hcons] at hq
    have hle := hlowest q hq
    exact (hcmp.swap _ _).mpr (by omega)

/-- Of two lowest installed packages, both are bounds for the same packages. -/
theorem belowInstalled_iff (hcmp : Lawful host.cmpEvr) {pszName : Text} {p : ℕ}
    (hp : LowestInstalled host pszName p) :
    BelowInstalled host pszName id ↔ host.cmpEvr id p < 0 := by
  constructor
  · rintro ⟨q, hq, hlt⟩
    exact hcmp.lt_of_lt_of_le hlt (hq.2 p hp.1)
  · exact fun hlt => ⟨p, hp, hlt⟩

end Loops

/-! ## The same loops with an optional choice -/

section Refinement

variable {host : AlterHost} {dwInstalled : ℕ} {pszPkgName : Text} {available : List ℕ}

theorem findPkgByName_eq_ok {scope : NameScope} :
    findPkgByName host scope pszPkgName = .ok available ↔
      Readable pszPkgName ∧ available ≠ [] ∧ host.select scope pszPkgName = available := by
  by_cases hname : pszPkgName = []
  · rw [findPkgByName, if_pos hname]
    simp [Readable, hname, throw, throwThe, MonadExceptOf.throw, bind, Except.bind]
  by_cases hcopy : allocateString pszPkgName = .ok pszPkgName
  · rw [findPkgByName_eq scope ⟨hname, hcopy⟩]
    split
    · next hnone =>
        rw [hnone]
        constructor
        · intro h
          cases h
        · exact fun h => absurd h.2.2.symm h.2.1
    · next hsome =>
        constructor
        · intro h
          cases h
          exact ⟨⟨hname, hcopy⟩, hsome, rfl⟩
        · rintro ⟨-, -, rfl⟩
          rfl
  · have hlong := (allocateString_eq pszPkgName).resolve_right hcopy
    rw [findPkgByName, if_neg hname, hlong]
    simp [Readable, hlong, bind, Except.bind]

/-- A query for a name knows nothing of downgrades. -/
theorem findPkgByName_ne_noDowngradePath (scope : NameScope) (pszPkgName : Text) :
    findPkgByName host scope pszPkgName ≠ .error .noDowngradePath := by
  intro h
  by_cases hname : pszPkgName = []
  · rw [findPkgByName, if_pos hname] at h
    cases h
  obtain hlong | hcopy := allocateString_eq pszPkgName
  · rw [findPkgByName, if_neg hname, hlong] at h
    cases h
  · rw [findPkgByName_eq scope ⟨hname, hcopy⟩] at h
    split at h
    · cases h
    · cases h

/-- Among packages, 0 marks that nothing was chosen yet. -/
theorem packageGetDowngrade_refines (hids : 0 ∉ available) :
    packageGetDowngrade host dwInstalled available =
      Client.packageGetDowngrade host dwInstalled available := by
  simp only [packageGetDowngrade, Client.packageGetDowngrade]
  generalize hbest : available.foldl _ none = best
  have hsame : best = if available.foldl (downgradeRound host dwInstalled) 0 = 0 then none
      else some (available.foldl (downgradeRound host dwInstalled) 0) := by
    rw [← hbest]
    refine List.foldl_rel (r := fun best n => best = if n = 0 then none else some n) rfl
      fun id hmem best n hn => ?_
    have hid : id ≠ 0 := fun hzero => hids (hzero ▸ hmem)
    rw [downgradeRound]
    by_cases hbelow : host.cmpEvr id dwInstalled < 0
    · rw [if_pos hbelow, if_pos hbelow]
      by_cases hnone : n = 0
      · rw [if_pos hnone] at hn
        rw [hn, if_pos hnone, if_neg hid]
      · rw [if_neg hnone] at hn
        rw [hn, if_neg hnone]
        by_cases hhigher : 0 < host.cmpEvr id n
        · simp only [if_pos hhigher, if_neg hid]
        · simp only [if_neg hhigher, if_neg hnone]
    · rw [if_neg hbelow, if_neg hbelow, hn]
  rw [hsame]
  split
  · rfl
  · rfl

theorem findLowestInstalled_refines (hids : PositiveIds host) (pszPkgName : Text) :
    findLowestInstalled host pszPkgName =
      Client.findHighestOrLowestInstalled host false pszPkgName := by
  rw [findLowestInstalled, findHighestOrLowestInstalled, Client.findHighestOrLowestInstalled]
  cases hfind : findPkgByName host .installed pszPkgName with
  | error e => rfl
  | ok installed =>
      obtain ⟨-, hne, hselect⟩ := findPkgByName_eq_ok.mp hfind
      obtain ⟨first, rest, rfl⟩ := List.exists_cons_of_ne_nil hne
      have hfirst : first ≠ 0 := by
        intro hzero
        refine hids .installed pszPkgName ?_
        rw [hselect, hzero]
        exact List.mem_cons_self
      simp only [bind, Except.bind, getPackageId, List.getElem?_cons_zero, if_pos hfirst]
      rfl

/-- On the goal queue, the loops do what the goal of the command is computed from. -/
theorem addPackagesForDowngrade_refines (hids : PositiveIds host) (pszPkgName : Text) :
    addPackagesForDowngrade host pszPkgName =
      (fromExcept (Client.addPackagesForDowngrade host pszPkgName) >>= fun ids =>
        modify fun queueGoal => queueGoal ++ ids) := by
  rw [addPackagesForDowngrade, Client.addPackagesForDowngrade]
  cases hfind : findPkgByName host .available pszPkgName with
  | error e => rfl
  | ok available =>
      obtain ⟨-, hne, hselect⟩ := findPkgByName_eq_ok.mp hfind
      have havailable : 0 ∉ available := hselect ▸ hids .available pszPkgName
      obtain ⟨first, rest, rfl⟩ := List.exists_cons_of_ne_nil hne
      have hfirst : getPackageId (first :: rest) 0 = .ok first := rfl
      rw [fromExcept_ok_bind, hfirst, fromExcept_ok_bind]
      cases hname : poolString (host.pkgName first) with
      | error e =>
          simp only [bind, Except.bind, hfirst, hname]
          rfl
      | ok pszName =>
          rw [fromExcept_ok_bind]
          simp only [bind, Except.bind, hfirst, hname, ← findLowestInstalled_refines hids,
            ← packageGetDowngrade_refines havailable]
          cases findLowestInstalled host pszName with
          | error e => rfl
          | ok dwInstalledId =>
              change (fromExcept (packageGetDowngrade host dwInstalledId (first :: rest)) >>= _) =
                (fromExcept (packageGetDowngrade host dwInstalledId (first :: rest) >>= _) >>= _)
              cases packageGetDowngrade host dwInstalledId (first :: rest) with
              | error e => rfl
              | ok id => rfl

end Refinement

/-! ## The goal queue after the call -/

section Goals

variable {host : AlterHost} {pszPkgName pszName : Text}

/-- The run, up to the choice of the target -/
theorem run_addPackagesForDowngrade (hcmp : Lawful host.cmpEvr) (hids : PositiveIds host)
    (hname : ∀ id ∈ host.select .available pszPkgName, host.pkgName id = some pszName)
    (hknown : AvailableAndInstalled host pszPkgName pszName) (queueGoal : List ℕ) :
    ∃ p, LowestInstalled host pszName p ∧
      (addPackagesForDowngrade host pszPkgName).run queueGoal =
        (fromExcept (packageGetDowngrade host p (host.select .available pszPkgName)) >>= fun id =>
          modify fun queueGoal => queueGoal ++ [id] : Proc _ _ _).run queueGoal := by
  obtain ⟨⟨hreadable, hne⟩, hreadable', hinstalled⟩ := hknown
  obtain ⟨p, hp, hlowest⟩ := findLowestInstalled_eq hcmp hids hreadable' hinstalled
  obtain ⟨first, rest, hcons⟩ := List.exists_cons_of_ne_nil hne
  have hfind : findPkgByName host .available pszPkgName = .ok (first :: rest) :=
    findPkgByName_eq_ok.mpr ⟨hreadable, List.cons_ne_nil _ _, hcons⟩
  have hfirst : getPackageId (first :: rest) 0 = .ok first := rfl
  have hcopy : poolString (host.pkgName first) = .ok pszName := by
    rw [hname first (hcons ▸ List.mem_cons_self), poolString]
    exact hreadable'.2
  refine ⟨p, hlowest, ?_⟩
  rw [addPackagesForDowngrade, hfind, fromExcept_ok_bind, hfirst, fromExcept_ok_bind, hcopy,
    fromExcept_ok_bind, hp, fromExcept_ok_bind, hcons]

/-- Without available packages of the name, or without installed ones, another error is
returned. -/
theorem run_addPackagesForDowngrade_unknown
    (hname : ∀ id ∈ host.select .available pszPkgName, host.pkgName id = some pszName)
    (hknown : ¬ AvailableAndInstalled host pszPkgName pszName) (queueGoal : List ℕ) :
    ∃ e ≠ .noDowngradePath,
      (addPackagesForDowngrade host pszPkgName).run queueGoal = .error e queueGoal := by
  rw [addPackagesForDowngrade]
  cases hfind : findPkgByName host .available pszPkgName with
  | error e =>
      refine ⟨e, ?_, rfl⟩
      rintro rfl
      exact findPkgByName_ne_noDowngradePath .available pszPkgName hfind
  | ok available =>
      obtain ⟨hreadable, hne, hselect⟩ := findPkgByName_eq_ok.mp hfind
      obtain ⟨first, rest, rfl⟩ := List.exists_cons_of_ne_nil hne
      have hfirst : getPackageId (first :: rest) 0 = .ok first := rfl
      rw [fromExcept_ok_bind, hfirst, fromExcept_ok_bind,
        hname first (hselect ▸ List.mem_cons_self), poolString]
      obtain hlong | hcopy := allocateString_eq pszName
      · rw [hlong]
        exact ⟨.stringTooLong, by decide, rfl⟩
      · rw [hcopy, fromExcept_ok_bind, findLowestInstalled, findHighestOrLowestInstalled]
        cases hinstalled : findPkgByName host .installed pszName with
        | error e =>
            refine ⟨e, ?_, rfl⟩
            rintro rfl
            exact findPkgByName_ne_noDowngradePath .installed pszName hinstalled
        | ok installed =>
            obtain ⟨hreadable', hne', hselect'⟩ := findPkgByName_eq_ok.mp hinstalled
            refine absurd ⟨⟨hreadable, ?_⟩, hreadable', ?_⟩ hknown
            · rw [hselect]
              exact hne
            · rw [hselect']
              exact hne'

/-- How the call ends: with a target, without one, or at a lookup. -/
theorem addPackagesForDowngrade_cases (hcmp : Lawful host.cmpEvr) (hids : PositiveIds host)
    (hname : ∀ id ∈ host.select .available pszPkgName, host.pkgName id = some pszName)
    (queueGoal : List ℕ) :
    (AvailableAndInstalled host pszPkgName pszName ∧
        ∃ id, IsTarget host pszPkgName pszName id ∧
          (addPackagesForDowngrade host pszPkgName).run queueGoal =
            .ok () (queueGoal ++ [id])) ∨
      (AvailableAndInstalled host pszPkgName pszName ∧
        (∀ id ∈ host.select .available pszPkgName, ¬ BelowInstalled host pszName id) ∧
          (addPackagesForDowngrade host pszPkgName).run queueGoal =
            .error .noDowngradePath queueGoal) ∨
      (¬ AvailableAndInstalled host pszPkgName pszName ∧
        ∃ e ≠ .noDowngradePath,
          (addPackagesForDowngrade host pszPkgName).run queueGoal = .error e queueGoal) := by
  by_cases hknown : AvailableAndInstalled host pszPkgName pszName
  · obtain ⟨p, hlowest, hrun⟩ := run_addPackagesForDowngrade hcmp hids hname hknown queueGoal
    have havailable : 0 ∉ host.select .available pszPkgName := hids .available pszPkgName
    cases hget : packageGetDowngrade host p (host.select .available pszPkgName) with
    | error e =>
        obtain ⟨rfl, hnone⟩ := packageGetDowngrade_eq_error hcmp havailable hget
        refine .inr (.inl ⟨hknown, fun id hid hbelow => ?_, ?_⟩)
        · exact hnone id hid ((belowInstalled_iff hcmp hlowest).mp hbelow)
        · rw [hrun, hget]
          rfl
    | ok id =>
        obtain ⟨hmem, hlt, hmax⟩ := packageGetDowngrade_eq_ok hcmp havailable hget
        refine .inl ⟨hknown, id, ⟨hmem, ⟨p, hlowest, hlt⟩, fun other hother hbelow => ?_⟩, ?_⟩
        · exact hmax other hother ((belowInstalled_iff hcmp hlowest).mp hbelow)
        · rw [hrun, hget]
          rfl
  · exact .inr (.inr ⟨hknown, run_addPackagesForDowngrade_unknown hname hknown queueGoal⟩)

/-- One available package is pushed, of maximal version among those strictly below the lowest
installed one. There is no downgrade path if and only if the name is available and installed and
no available version is below; the goal queue then stays as it was, as with any other error. -/
theorem addPackagesForDowngrade_target (hcmp : Lawful host.cmpEvr) (hids : PositiveIds host)
    (hname : ∀ id ∈ host.select .available pszPkgName, host.pkgName id = some pszName)
    (queueGoal : List ℕ) :
    ((∃ t, (addPackagesForDowngrade host pszPkgName).run queueGoal = .ok () t) ↔
        AvailableAndInstalled host pszPkgName pszName ∧
          ∃ id ∈ host.select .available pszPkgName, BelowInstalled host pszName id) ∧
      (∀ t, (addPackagesForDowngrade host pszPkgName).run queueGoal = .ok () t →
        ∃ id, t = queueGoal ++ [id] ∧ IsTarget host pszPkgName pszName id) ∧
      ((∃ t, (addPackagesForDowngrade host pszPkgName).run queueGoal =
          .error .noDowngradePath t) ↔
        AvailableAndInstalled host pszPkgName pszName ∧
          ∀ id ∈ host.select .available pszPkgName, ¬ BelowInstalled host pszName id) ∧
      ∀ e t, (addPackagesForDowngrade host pszPkgName).run queueGoal = .error e t →
        t = queueGoal := by
  obtain ⟨hknown, id, htarget, hrun⟩ | ⟨hknown, hnone, hrun⟩ | ⟨hknown, e, hne, hrun⟩ :=
    addPackagesForDowngrade_cases hcmp hids hname queueGoal
  · rw [hrun]
    refine ⟨⟨fun _ => ⟨hknown, id, htarget.1, htarget.2.1⟩, fun _ => ⟨_, rfl⟩⟩, ?_, ?_, ?_⟩
    · intro t h
      cases h
      exact ⟨id, rfl, htarget⟩
    · constructor
      · rintro ⟨t, h⟩
        cases h
      · exact fun h => absurd htarget.2.1 (h.2 id htarget.1)
    · intro e t h
      cases h
  · rw [hrun]
    refine ⟨?_, ?_, ⟨fun _ => ⟨hknown, hnone⟩, fun _ => ⟨_, rfl⟩⟩, ?_⟩
    · constructor
      · rintro ⟨t, h⟩
        cases h
      · rintro ⟨-, id, hid, hbelow⟩
        exact absurd hbelow (hnone id hid)
    · intro t h
      cases h
    · intro e t h
      cases h
      rfl
  · rw [hrun]
    refine ⟨?_, ?_, ?_, ?_⟩
    · constructor
      · rintro ⟨t, h⟩
        cases h
      · exact fun h => absurd h.1 hknown
    · intro t h
      cases h
    · constructor
      · rintro ⟨t, h⟩
        cases h
        exact absurd rfl hne
      · exact fun h => absurd h.1 hknown
    · intro e t h
      cases h
      rfl

/-- Three available versions of "vim" around the two that are installed -/
def olderVersions : AlterHost :=
  { withAdvisory [3, 4] [] with
    select := fun scope _ =>
      match scope with
      | .installed => [4, 3]
      | .available => [1, 2, 5]
      | _ => []
    pkgName := fun _ => some "vim".toList }

theorem addPackagesForDowngrade_olderVersions :
    ∃ id, (addPackagesForDowngrade olderVersions "vim".toList).run [7] = .ok () [7, id] ∧
      IsTarget olderVersions "vim".toList "vim".toList id := by
  have hcmp : Lawful olderVersions.cmpEvr := lawful_withAdvisory [3, 4] []
  have hids : PositiveIds olderVersions := by
    intro scope _
    cases scope with
    | all => exact List.not_mem_nil
    | source => exact List.not_mem_nil
    | installed => exact (by decide : 0 ∉ [4, 3])
    | available => exact (by decide : 0 ∉ [1, 2, 5])
    | availableSource => exact List.not_mem_nil
  have hread : Readable "vim".toList := ⟨by decide, by decide⟩
  have hlowest : LowestInstalled olderVersions "vim".toList 3 := ⟨by decide, by decide⟩
  obtain ⟨hsucceeds, hpushes, -, -⟩ := @addPackagesForDowngrade_target olderVersions "vim".toList
    "vim".toList hcmp hids (fun _ _ => rfl) [7]
  obtain ⟨t, hrun⟩ := hsucceeds.mpr
    ⟨⟨⟨hread, by decide⟩, hread, by decide⟩, 1, by decide, 3, hlowest, by decide⟩
  obtain ⟨id, rfl, htarget⟩ := hpushes t hrun
  exact ⟨id, hrun, htarget⟩

end Goals

end Tdnf.Client.DowngradeTarget
