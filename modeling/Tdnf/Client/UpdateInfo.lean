import Tdnf.Client.Repo
import Tdnf.Library.Procedure

/-!
# Update advisories

`TDNFUpdateInfoSummary` counts the advisories for installed packages by their
type, `TDNFUpdateInfo` lists them. Both run through the same advisories and
filter them with code of their own.
-/

namespace Tdnf.Client

open PathText Common Procedure

/-- `nType` of an advisory -/
inductive UpdateType where
  | unknown
  | security
  | bugfix
  | enhancement
deriving DecidableEq, Repr

/-- `TDNF_UPDATEINFO_PKG`, an entry of the collection of an advisory -/
structure UpdateInfoPkg where
  pszName : Option Text
  pszEVR : Option Text
  pszArch : Option Text
  pszFileName : Option Text
deriving DecidableEq, Repr

/-- What the pool knows of an advisory. -/
structure Advisory where
  category : Option Text
  severity : Option Text
  reboot : Bool
  name : Option Text
  description : Option Text
  buildTime : ℤ
  collection : List UpdateInfoPkg
deriving DecidableEq, Repr

/-- The parts of an installed package that advisories are matched with. -/
structure InstalledPkg where
  name : Text
  arch : Option Text
  evr : Text
deriving DecidableEq, Repr

/-- `TDNF_UPDATEINFO` -/
structure UpdateInfo where
  nType : UpdateType
  nRebootRequired : Bool
  pszID : Option Text
  pszDescription : Option Text
  pszDate : Option Text
  pPackages : List UpdateInfoPkg
deriving DecidableEq, Repr

/-- The pool and the functions that both commands use. -/
structure UpdateHost where
  /-- the packages that are found after `TDNFRefresh`: all installed ones, or those that the
  arguments name -/
  installed : Except TdnfError (List InstalledPkg)
  advisories : List Advisory
  /-- `pool_evrcmp` -/
  evrcmp : Text → Text → ℤ
  /-- `atof` of the first text is above that of the second -/
  atofAbove : Text → Text → Bool
  /-- `localtime` and `strftime`, where both succeed -/
  localDate : ℤ → Option Text

section Code

variable (host : UpdateHost)

/-- One round of the loop in `TDNFGetSecuritySeverityOption` -/
def readSecurityOption (s : Bool × Option Text) (o : CmdOpt) :
    Except TdnfError (Bool × Option Text) := do
  let name := o.pszOptName.toList
  let dwSecurity := s.1 || equalsCase name "security".toList
  if equalsCase name "sec-severity".toList then
    let value ← allocateString o.pszOptValue
    return (dwSecurity, some value)
  else return (dwSecurity, s.2)

/-- `TDNFGetSecuritySeverityOption` -/
def getSecuritySeverityOption (opts : List CmdOpt) : Except TdnfError (Bool × Option Text) :=
  opts.foldlM readSecurityOption (false, none)

/-- `TDNFGetRebootRequiredOption` -/
def getRebootRequiredOption (opts : List CmdOpt) : Bool :=
  opts.any fun o => equalsCase o.pszOptName.toList "reboot-required".toList

/-- Whether an entry of a collection is an update of the package. -/
def updates (pkg : InstalledPkg) (entry : UpdateInfoPkg) : Bool :=
  match entry.pszEVR with
  | none => false
  | some evr =>
    entry.pszName = some pkg.name && entry.pszArch = pkg.arch && 0 < host.evrcmp evr pkg.evr

/-- The advisories that `SolvGetUpdateAdvisories` queues. -/
def updateAdvisories (pkg : InstalledPkg) : List Advisory :=
  host.advisories.filter fun adv => adv.collection.any (updates host pkg)

/-- `SolvGetUpdateAdvisories` -/
def getUpdateAdvisories (pkg : InstalledPkg) : Except TdnfError (List Advisory) :=
  match updateAdvisories host pkg with
  | [] => .error .noData
  | advs => .ok advs

/-- The advisories of a package in the loops of both functions: no data is ignored. -/
def loopAdvisories (pkg : InstalledPkg) : Except Fault (List Advisory) :=
  match getUpdateAdvisories host pkg with
  | .error e => if e = .noData then .ok [] else .error (.code e)
  | .ok advs => .ok advs

/-- The type of a category. -/
def updateType : Option Text → UpdateType
  | none => .unknown
  | some category =>
    if category = "bugfix".toList then .bugfix
    else if category = "enhancement".toList then .enhancement
    else if category = "security".toList then .security
    else .unknown

/-- Whether a severity is as high as the one asked for. -/
def severeEnough (pszSeverity severity : Option Text) : Bool :=
  match pszSeverity, severity with
  | none, _ => true
  | some _, none => false
  | some asked, some given => !host.atofAbove asked given

/-- Whether `TDNFUpdateInfoSummary` counts an advisory. -/
def summaryKeeps (dwSecurity : Bool) (pszSeverity : Option Text) (adv : Advisory) : Bool :=
  if dwSecurity then updateType adv.category == .security
  else severeEnough host pszSeverity adv.severity

/-- One round of the loop over the advisories of a package in `TDNFUpdateInfoSummary` -/
def countAdvisory (dwSecurity : Bool) (pszSeverity : Option Text) (counts : UpdateType → ℕ)
    (adv : Advisory) : UpdateType → ℕ :=
  let nType := updateType adv.category
  if summaryKeeps host dwSecurity pszSeverity adv then
    Function.update counts nType (counts nType + 1)
  else counts

/-- `TDNFUpdateInfoSummary` -/
def updateInfoSummary (opts : List CmdOpt) : Except Fault (UpdateType → ℕ) := do
  let pkgs ← host.installed.mapError .code
  let (dwSecurity, pszSeverity) ← (getSecuritySeverityOption opts).mapError .code
  pkgs.foldlM (fun counts pkg => do
    let advs ← loopAdvisories host pkg
    return advs.foldl (countAdvisory host dwSecurity pszSeverity) counts) fun _ => 0

/-- `strcmp` of a string that may be NULL -/
def strcmpEqual (s : Option Text) (t : Text) : Except Fault Bool :=
  match s with
  | none => .error .nullRead
  | some s => .ok (s == t)

/-- `dwKeepEntry` in `TDNFPopulateUpdateInfoOfOneAdvisory` -/
def keepEntry (dwSecurity : Bool) (pszSeverity : Option Text) (dwRebootRequired : Bool)
    (adv : Advisory) : Except Fault Bool := do
  let keep ←
    if dwSecurity then strcmpEqual adv.category "security".toList
    else pure (severeEnough host pszSeverity adv.severity)
  return keep && (!dwRebootRequired || adv.reboot)

/-- A string copied unless it is NULL. -/
def allocateOptional (s : Option Text) : Except TdnfError (Option Text) :=
  s.mapM allocateString

/-- One round of `TDNFGetUpdateInfoPackages` -/
def updateInfoPkg (pkgs : List UpdateInfoPkg) (entry : UpdateInfoPkg) :
    Except TdnfError (List UpdateInfoPkg) := do
  let pszName ← allocateOptional entry.pszName
  let pszEVR ← allocateOptional entry.pszEVR
  let pszArch ← allocateOptional entry.pszArch
  let pszFileName ← allocateOptional entry.pszFileName
  return ⟨pszName, pszEVR, pszArch, pszFileName⟩ :: pkgs

/-- `pszDate` of an entry; no build time leaves it NULL. -/
def updateDate (buildTime : ℤ) : Except TdnfError (Option Text) :=
  if 0 < buildTime then
    match host.localDate buildTime with
    | none => .error .invalidParameter
    | some szDate => allocateOptional (some szDate)
  else .ok none

/-- The entry for an advisory that is kept. -/
def advisoryEntry (adv : Advisory) : Except TdnfError UpdateInfo := do
  let pszID ← allocateOptional adv.name
  let pszDescription ← allocateOptional adv.description
  let pszDate ← updateDate host adv.buildTime
  let pPackages ← adv.collection.foldlM updateInfoPkg []
  return ⟨updateType adv.category, adv.reboot, pszID, pszDescription, pszDate, pPackages⟩

/-- `TDNFPopulateUpdateInfoOfOneAdvisory` -/
def populateOneAdvisory (dwSecurity : Bool) (pszSeverity : Option Text)
    (dwRebootRequired : Bool) (adv : Advisory) : Except Fault (Option UpdateInfo) := do
  let dwKeepEntry ← keepEntry host dwSecurity pszSeverity dwRebootRequired adv
  if dwKeepEntry then do
    let info ← (advisoryEntry host adv).mapError .code
    return some info
  else return none

/-- One round of the loop over the advisories of a package in `TDNFUpdateInfo` -/
def listAdvisory (dwSecurity : Bool) (pszSeverity : Option Text) (dwRebootRequired : Bool)
    (infos : List UpdateInfo) (adv : Advisory) : Except Fault (List UpdateInfo) := do
  let info ← populateOneAdvisory host dwSecurity pszSeverity dwRebootRequired adv
  return info.toList ++ infos

/-- `TDNFUpdateInfo` -/
def updateInfo (opts : List CmdOpt) : Except Fault (List UpdateInfo) := do
  let pkgs ← host.installed.mapError .code
  let (dwSecurity, pszSeverity) ← (getSecuritySeverityOption opts).mapError .code
  let dwRebootRequired := getRebootRequiredOption opts
  let infos ← pkgs.foldlM (fun infos pkg => do
    let advs ← loopAdvisories host pkg
    advs.foldlM (listAdvisory host dwSecurity pszSeverity dwRebootRequired) infos) []
  if infos = [] then throw (.code .noData) else return infos

end Code

/-- The entries that a call returns: none if it fails. -/
def returned : Except Fault (List UpdateInfo) → List UpdateInfo
  | .ok infos => infos
  | .error _ => []

/-- Nothing is read through NULL, and a summary counts the entries that are listed. -/
def Consistent (host : UpdateHost) (opts : List CmdOpt) : Prop :=
  updateInfoSummary host opts ≠ .error .nullRead ∧ updateInfo host opts ≠ .error .nullRead ∧
    ∀ counts, updateInfoSummary host opts = .ok counts → ∀ nType,
      counts nType = (returned (updateInfo host opts)).countP fun info => info.nType = nType

/-! ## The loops over the advisories of all packages -/

/-- The advisories that both loops come to. -/
def considered (host : UpdateHost) (pkgs : List InstalledPkg) : List Advisory :=
  pkgs.flatMap (updateAdvisories host)

section Loops

variable {host : UpdateHost} {sec : Bool} {sev : Option Text} {reboot : Bool} {adv : Advisory}
  {advs : List Advisory} {pkgs : List InstalledPkg} {infos out : List UpdateInfo}

theorem loopAdvisories_eq (pkg : InstalledPkg) :
    loopAdvisories host pkg = .ok (updateAdvisories host pkg) := by
  rw [loopAdvisories, getUpdateAdvisories]
  cases updateAdvisories host pkg with
  | nil => rfl
  | cons adv advs => rfl

theorem summary_loop (counts : UpdateType → ℕ) :
    pkgs.foldlM (fun counts pkg => do
      let advs ← loopAdvisories host pkg
      return advs.foldl (countAdvisory host sec sev) counts) counts =
      (.ok ((considered host pkgs).foldl (countAdvisory host sec sev) counts) :
        Except Fault (UpdateType → ℕ)) := by
  induction pkgs generalizing counts with
  | nil => rfl
  | cons pkg pkgs ih =>
      rw [List.foldlM_cons, loopAdvisories_eq, considered, List.flatMap_cons, List.foldl_append]
      exact ih _

theorem list_loop (infos : List UpdateInfo) :
    pkgs.foldlM (fun infos pkg => do
      let advs ← loopAdvisories host pkg
      advs.foldlM (listAdvisory host sec sev reboot) infos) infos =
      (considered host pkgs).foldlM (listAdvisory host sec sev reboot) infos := by
  induction pkgs generalizing infos with
  | nil => rfl
  | cons pkg pkgs ih =>
      rw [List.foldlM_cons, loopAdvisories_eq, considered, List.flatMap_cons, List.foldlM_append]
      exact congrArg _ (funext ih)

/-- The summary counts what it keeps. -/
theorem foldl_countAdvisory (counts : UpdateType → ℕ) (nType : UpdateType) :
    advs.foldl (countAdvisory host sec sev) counts nType = counts nType +
      advs.countP fun adv => updateType adv.category = nType && summaryKeeps host sec sev adv := by
  induction advs generalizing counts with
  | nil => rfl
  | cons adv advs ih =>
      rw [List.foldl_cons, ih, List.countP_cons, countAdvisory]
      by_cases hkeep : summaryKeeps host sec sev adv = true
      · by_cases htype : updateType adv.category = nType
        · subst htype
          simp only [hkeep, if_true, Function.update_self, decide_true, Bool.and_true]
          omega
        · simp [hkeep, htype, Function.update_of_ne (Ne.symm htype)]
      · simp [hkeep]

/-! ## One advisory in both commands -/

/-- Both commands treat the advisory alike: its category is there if it is compared, the flag is
there if it is required, and an entry can be made if it is counted. -/
structure Aligned (host : UpdateHost) (sec : Bool) (sev : Option Text) (reboot : Bool)
    (adv : Advisory) : Prop where
  category : sec = true → adv.category ≠ none
  flag : summaryKeeps host sec sev adv = true → reboot = true → adv.reboot = true
  entry : summaryKeeps host sec sev adv = true → ∃ info, advisoryEntry host adv = .ok info

theorem updateType_eq_security (category : Text) :
    (updateType (some category) == .security) = (category == "security".toList) := by
  rw [updateType]
  split_ifs with hbugfix henhancement hsecurity
  · subst hbugfix
    rfl
  · subst henhancement
    rfl
  · subst hsecurity
    rfl
  · exact (beq_eq_false_iff_ne.mpr hsecurity).symm

/-- What is listed of an advisory whose category is there. -/
theorem keepEntry_eq (hcategory : sec = true → adv.category ≠ none) :
    keepEntry host sec sev reboot adv =
      .ok (summaryKeeps host sec sev adv && (!reboot || adv.reboot)) := by
  rw [keepEntry, summaryKeeps]
  cases sec with
  | false => rfl
  | true =>
      cases hadv : adv.category with
      | none => exact absurd hadv (hcategory rfl)
      | some category =>
          simp only [if_true, updateType_eq_security]
          rfl

theorem populate_null (hsec : sec = true) (hcategory : adv.category = none) :
    populateOneAdvisory host sec sev reboot adv = .error .nullRead := by
  subst hsec
  rw [populateOneAdvisory, keepEntry, hcategory]
  rfl

theorem populate_eq (hcategory : sec = true → adv.category ≠ none) :
    populateOneAdvisory host sec sev reboot adv =
      if summaryKeeps host sec sev adv && (!reboot || adv.reboot) then
        (advisoryEntry host adv).mapError .code >>= fun info => pure (some info)
      else pure none := by
  rw [populateOneAdvisory, keepEntry_eq hcategory]
  rfl

/-- An entry has the type of its advisory. -/
theorem advisoryEntry_nType {info : UpdateInfo} (h : advisoryEntry host adv = .ok info) :
    info.nType = updateType adv.category := by
  obtain ⟨pszID, -, h⟩ := exists_of_bind_ok h
  obtain ⟨pszDescription, -, h⟩ := exists_of_bind_ok h
  obtain ⟨pszDate, -, h⟩ := exists_of_bind_ok h
  obtain ⟨pPackages, -, h⟩ := exists_of_bind_ok h
  cases h
  rfl

/-- What it means for the listing of one advisory to succeed. -/
theorem populate_ok {r : Option UpdateInfo}
    (h : populateOneAdvisory host sec sev reboot adv = .ok r) :
    (sec = true → adv.category ≠ none) ∧
      (summaryKeeps host sec sev adv = true → (!reboot || adv.reboot) = true →
        ∃ info, advisoryEntry host adv = .ok info) ∧
      ∀ nType, (r.toList.countP fun info => info.nType = nType) =
        if (updateType adv.category = nType && summaryKeeps host sec sev adv) &&
          (!reboot || adv.reboot) then 1 else 0 := by
  have hcategory : sec = true → adv.category ≠ none := by
    intro hsec hnone
    rw [populate_null hsec hnone] at h
    cases h
  refine ⟨hcategory, ?_⟩
  rw [populate_eq hcategory] at h
  by_cases hlisted : (summaryKeeps host sec sev adv && (!reboot || adv.reboot)) = true
  · rw [if_pos hlisted] at h
    obtain ⟨info, hinfo, h⟩ := exists_of_bind_ok h
    cases h
    cases hentry : advisoryEntry host adv with
    | error e =>
        rw [hentry] at hinfo
        cases hinfo
    | ok info' =>
        rw [hentry] at hinfo
        cases hinfo
        refine ⟨fun _ _ => ⟨_, rfl⟩, fun nType => ?_⟩
        rw [Bool.and_assoc, hlisted, ← advisoryEntry_nType hentry]
        simp [List.countP_cons]
  · rw [if_neg hlisted] at h
    cases h
    refine ⟨fun hkeep hreboot => absurd (by rw [hkeep, hreboot]; rfl) hlisted, fun nType => ?_⟩
    rw [Bool.and_assoc, Bool.eq_false_iff.mpr hlisted, Bool.and_false]
    rfl

/-- An error in the listing of one advisory is a null read or comes from an entry that the
summary counts. -/
theorem populate_error {e : TdnfError}
    (h : populateOneAdvisory host sec sev reboot adv = .error (.code e)) :
    summaryKeeps host sec sev adv = true := by
  have hcategory : sec = true → adv.category ≠ none := by
    intro hsec hnone
    rw [populate_null hsec hnone] at h
    cases h
  rw [populate_eq hcategory] at h
  by_cases hlisted : (summaryKeeps host sec sev adv && (!reboot || adv.reboot)) = true
  · exact (Bool.and_eq_true_iff.mp hlisted).1
  · rw [if_neg hlisted] at h
    cases h

/-! ## A run of the listing -/

theorem list_run_ok
    (h : advs.foldlM (listAdvisory host sec sev reboot) infos = .ok out) :
    (∀ adv ∈ advs, ∃ r, populateOneAdvisory host sec sev reboot adv = .ok r) ∧
      ∀ nType, (out.countP fun info => info.nType = nType) =
        (infos.countP fun info => info.nType = nType) +
          advs.countP fun adv =>
            (updateType adv.category = nType && summaryKeeps host sec sev adv) &&
              (!reboot || adv.reboot) := by
  induction advs generalizing infos with
  | nil =>
      cases h
      simp
  | cons adv advs ih =>
      rw [List.foldlM_cons] at h
      obtain ⟨infos', hstep, hrest⟩ := exists_of_bind_ok h
      obtain ⟨r, hr, hinfos⟩ := exists_of_bind_ok hstep
      cases hinfos
      obtain ⟨hall, hcount⟩ := ih hrest
      refine ⟨List.forall_mem_cons.mpr ⟨⟨r, hr⟩, hall⟩, fun nType => ?_⟩
      rw [hcount nType, List.countP_append, (populate_ok hr).2.2 nType, List.countP_cons]
      omega

theorem list_run_error {f : Fault}
    (h : advs.foldlM (listAdvisory host sec sev reboot) infos = .error f) :
    ∃ adv ∈ advs, populateOneAdvisory host sec sev reboot adv = .error f := by
  induction advs generalizing infos with
  | nil => cases h
  | cons adv advs ih =>
      rw [List.foldlM_cons, listAdvisory] at h
      cases hr : populateOneAdvisory host sec sev reboot adv with
      | error f' =>
          rw [hr] at h
          cases h
          exact ⟨adv, List.mem_cons_self, hr⟩
      | ok r =>
          rw [hr] at h
          obtain ⟨adv', hmem, hfail⟩ := ih h
          exact ⟨adv', List.mem_cons_of_mem adv hmem, hfail⟩

end Loops

/-! ## When summary and list agree -/

/-- Every advisory that is considered is treated alike by both commands. -/
def AllAligned (host : UpdateHost) (opts : List CmdOpt) : Prop :=
  ∀ pkgs sec sev, host.installed = .ok pkgs → getSecuritySeverityOption opts = .ok (sec, sev) →
    ∀ adv ∈ considered host pkgs, Aligned host sec sev (getRebootRequiredOption opts) adv

section Agreement

variable {host : UpdateHost} {opts : List CmdOpt} {pkgs : List InstalledPkg} {sec : Bool}
  {sev : Option Text}

theorem updateInfoSummary_eq (hpkgs : host.installed = .ok pkgs)
    (hopts : getSecuritySeverityOption opts = .ok (sec, sev)) :
    updateInfoSummary host opts =
      .ok ((considered host pkgs).foldl (countAdvisory host sec sev) fun _ => 0) := by
  rw [updateInfoSummary, hpkgs, hopts]
  exact summary_loop _

theorem updateInfo_eq (hpkgs : host.installed = .ok pkgs)
    (hopts : getSecuritySeverityOption opts = .ok (sec, sev)) :
    updateInfo host opts = (do
      let infos ← (considered host pkgs).foldlM
        (listAdvisory host sec sev (getRebootRequiredOption opts)) []
      if infos = [] then throw (.code .noData) else return infos) := by
  rw [updateInfo, hpkgs, hopts, ← list_loop]
  rfl

/-- The number that the summary has for a type. -/
theorem summary_count (nType : UpdateType) :
    (considered host pkgs).foldl (countAdvisory host sec sev) (fun _ => 0) nType =
      (considered host pkgs).countP fun adv =>
        updateType adv.category = nType && summaryKeeps host sec sev adv := by
  rw [foldl_countAdvisory, Nat.zero_add]

theorem consistent_of_aligned (hpkgs : host.installed = .ok pkgs)
    (hopts : getSecuritySeverityOption opts = .ok (sec, sev))
    (halign : ∀ adv ∈ considered host pkgs,
      Aligned host sec sev (getRebootRequiredOption opts) adv) :
    Consistent host opts := by
  have hsummary := updateInfoSummary_eq hpkgs hopts
  have hlist := updateInfo_eq hpkgs hopts
  cases hrun : (considered host pkgs).foldlM
      (listAdvisory host sec sev (getRebootRequiredOption opts)) [] with
  | error f =>
      obtain ⟨adv, hadv, hfail⟩ := list_run_error hrun
      rw [populate_eq (halign adv hadv).category] at hfail
      split_ifs at hfail with hlisted
      · obtain ⟨info, hinfo⟩ := (halign adv hadv).entry (Bool.and_eq_true_iff.mp hlisted).1
        rw [hinfo] at hfail
        cases hfail
      · cases hfail
  | ok out =>
      rw [hrun] at hlist
      have hreturned : returned (updateInfo host opts) = out ∧
          updateInfo host opts ≠ .error .nullRead := by
        rw [hlist]
        cases out with
        | nil => exact ⟨rfl, fun h => by cases h⟩
        | cons info infos => exact ⟨rfl, fun h => by cases h⟩
      have hok : updateInfoSummary host opts ≠ .error .nullRead := by
        rw [hsummary]
        intro h
        cases h
      refine ⟨hok, hreturned.2, fun counts hcounts nType => ?_⟩
      cases hsummary.symm.trans hcounts
      rw [hreturned.1, (list_run_ok hrun).2 nType, summary_count, List.countP_nil, Nat.zero_add]
      apply List.countP_congr
      intro adv hadv
      simp only [Bool.and_eq_true, decide_eq_true_eq, Bool.or_eq_true, Bool.not_eq_true']
      refine ⟨fun h => ⟨h, ?_⟩, fun h => h.1⟩
      rw [← Bool.not_eq_true, ← imp_iff_not_or]
      exact (halign adv hadv).flag h.2

/-- All elements that pass a test have a property if as many pass both. -/
theorem forall_of_countP_eq {α : Type} {p q : α → Bool} {l : List α}
    (h : l.countP p = l.countP fun a => p a && q a) {a : α} (ha : a ∈ l) (hp : p a = true) :
    q a = true := by
  have hfilter : (l.filter p).countP q = (l.filter p).length := by
    rw [List.countP_filter, ← List.countP_eq_length_filter, h]
    exact List.countP_congr fun b _ => by rw [Bool.and_comm]
  exact List.countP_eq_length.mp hfilter a (List.mem_filter.mpr ⟨ha, hp⟩)

theorem aligned_of_consistent (hpkgs : host.installed = .ok pkgs)
    (hopts : getSecuritySeverityOption opts = .ok (sec, sev)) (h : Consistent host opts) :
    ∀ adv ∈ considered host pkgs, Aligned host sec sev (getRebootRequiredOption opts) adv := by
  obtain ⟨-, hnull, hcounts⟩ := h
  have hcounts := hcounts _ (updateInfoSummary_eq hpkgs hopts)
  have hlist := updateInfo_eq hpkgs hopts
  cases hrun : (considered host pkgs).foldlM
      (listAdvisory host sec sev (getRebootRequiredOption opts)) [] with
  | error f =>
      rw [hrun] at hlist
      cases f with
      | nullRead => exact absurd hlist hnull
      | code e =>
          -- the listing fails at an advisory that the summary has counted
          obtain ⟨adv, hadv, hfail⟩ := list_run_error hrun
          have hzero := hcounts (updateType adv.category)
          rw [hlist, summary_count] at hzero
          have hkeep := List.countP_eq_zero.mp hzero adv hadv
          simp [populate_error hfail] at hkeep
  | ok out =>
      rw [hrun] at hlist
      have hreturned : returned (updateInfo host opts) = out := by
        rw [hlist]
        cases out with
        | nil => rfl
        | cons info infos => rfl
      obtain ⟨hall, hcount⟩ := list_run_ok hrun
      intro adv hadv
      obtain ⟨r, hr⟩ := hall adv hadv
      obtain ⟨hcategory, hentry, -⟩ := populate_ok hr
      have hflag : summaryKeeps host sec sev adv = true →
          (!getRebootRequiredOption opts || adv.reboot) = true := by
        intro hkeep
        have heq := hcounts (updateType adv.category)
        rw [hreturned, summary_count, hcount, List.countP_nil, Nat.zero_add] at heq
        exact forall_of_countP_eq heq hadv (by simp [hkeep])
      refine ⟨hcategory, fun hkeep hreboot => ?_, fun hkeep => hentry hkeep (hflag hkeep)⟩
      have hor := hflag hkeep
      rw [hreboot] at hor
      exact hor

/-- Commands that fail before the loops have nothing to agree on. -/
theorem consistent_of_error {e : TdnfError}
    (hsummary : updateInfoSummary host opts = .error (.code e))
    (hlist : updateInfo host opts = .error (.code e)) : Consistent host opts := by
  refine ⟨?_, ?_, fun counts hcounts => ?_⟩
  · rw [hsummary]
    intro h
    cases h
  · rw [hlist]
    intro h
    cases h
  · cases hsummary.symm.trans hcounts

/-- Summary and list agree exactly if every advisory that is considered is treated alike. -/
theorem updateInfo_consistent_iff (host : UpdateHost) (opts : List CmdOpt) :
    Consistent host opts ↔ AllAligned host opts := by
  cases hpkgs : host.installed with
  | error e =>
      refine iff_of_true (consistent_of_error (e := e) ?_ ?_) fun pkgs sec sev hok => ?_
      · rw [updateInfoSummary, hpkgs]
        rfl
      · rw [updateInfo, hpkgs]
        rfl
      · cases hpkgs.symm.trans hok
  | ok pkgs =>
      cases hopts : getSecuritySeverityOption opts with
      | error e =>
          refine iff_of_true (consistent_of_error (e := e) ?_ ?_) fun pkgs sec sev _ hok => ?_
          · rw [updateInfoSummary, hpkgs, hopts]
            rfl
          · rw [updateInfo, hpkgs, hopts]
            rfl
          · cases hopts.symm.trans hok
      | ok s =>
          obtain ⟨sec, sev⟩ := s
          constructor
          · intro h pkgs' sec' sev' hpkgs' hopts'
            cases hpkgs.symm.trans hpkgs'
            cases hopts.symm.trans hopts'
            exact aligned_of_consistent hpkgs hopts h
          · intro h
            exact consistent_of_aligned hpkgs hopts (h pkgs sec sev hpkgs hopts)

end Agreement

/-- One installed package, and one advisory without a category for its update. -/
def oneUpdate : UpdateHost where
  installed := .ok [⟨"a".toList, some "noarch".toList, "1".toList⟩]
  advisories := [{
    category := none
    severity := none
    reboot := false
    name := none
    description := none
    buildTime := 0
    collection := [⟨some "a".toList, some "2".toList, some "noarch".toList, none⟩] }]
  evrcmp := fun a b => if a = b then 0 else 1
  atofAbove := fun _ _ => false
  localDate := fun _ => none

/-- `--security` reads the category that the advisory does not have. -/
theorem category_null_read : ¬ Consistent oneUpdate [⟨"security", ['1']⟩] := by
  rintro ⟨-, hnull, -⟩
  exact hnull rfl

end Tdnf.Client
