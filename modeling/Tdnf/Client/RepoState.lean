import Tdnf.Client.Repo
import Tdnf.Library.Overrides
import Tdnf.Library.Procedure

/-!
# Enabling and disabling repositories

`TDNFRepoListFinalize` applies the options that enable or disable repositories
to the list, one after the other, and then replaces variables in every
repository. What an option does to one repository depends on the repositories
that are listed before it.
-/

namespace Tdnf.Client

open PathText Common Overrides Procedure

section Finalize

variable (fnmatch : Text → Text → Bool)

/-- The loop of `TDNFAlterRepoState`, with the value `nMatch` has when it comes to the
remaining repositories. -/
def alterLoop (nEnable : Bool) (pszId : Text) : Bool → List Repo → List Repo
  | _, [] => []
  | nMatch, repo :: repos =>
    let matched := if isGlob pszId then fnmatch pszId repo.pszId else repo.pszId == pszId
    if nMatch || matched then
      if isGlob pszId then
        repo.setEnabled nEnable :: alterLoop nEnable pszId true repos
      else repo.setEnabled nEnable :: repos
    else repo :: alterLoop nEnable pszId nMatch repos

/-- `TDNFAlterRepoState` -/
def alterRepoState (repos : List Repo) (nEnable : Bool) (pszId : Text) :
    Except TdnfError (List Repo) :=
  if repos = [] ∨ pszId = [] then .error .invalidParameter
  else .ok (alterLoop fnmatch nEnable pszId false repos)

/-- One round of the option loop in `TDNFRepoListFinalize`; the flag is `nRepoidSeen`. -/
def applyOption (s : List Repo × Bool) (o : CmdOpt) : Except TdnfError (List Repo × Bool) :=
  if o.pszOptName = "enablerepo" then do
    let repos ← alterRepoState fnmatch s.1 true o.pszOptValue
    return (repos, s.2)
  else if o.pszOptName = "disablerepo" then do
    let repos ← alterRepoState fnmatch s.1 false o.pszOptValue
    return (repos, s.2)
  else if o.pszOptName = "repo" ∨ o.pszOptName = "repoid" then do
    let repos ← if s.2 then pure s.1 else alterRepoState fnmatch s.1 false ['*']
    let repos ← alterRepoState fnmatch repos true o.pszOptValue
    return (repos, true)
  else return s

/-- What the second part of `TDNFRepoListFinalize` calls. -/
structure FinalizeHost where
  /-- `TDNFConfigReplaceVars` -/
  replaceVars : Text → Except TdnfError Text
  /-- `SolvCreateRepoCacheName` -/
  createRepoCacheName : Text → Text → Except TdnfError Text

/-- The URL a repository is named after in the cache. -/
def cacheNameUrl (repo : Repo) : Option Text :=
  match repo.pszMetaLink, repo.pszMirrorList with
  | some url, _ => some url
  | none, some url => some url
  | none, none => (repo.ppszBaseUrls.getD []).head?

/-- The variables in the strings of a repository are replaced. -/
def replaceRepoVars (host : FinalizeHost) (repo : Repo) : Except TdnfError Repo := do
  let pszName ← repo.pszName.mapM host.replaceVars
  let ppszBaseUrls ← repo.ppszBaseUrls.mapM fun urls => urls.mapM host.replaceVars
  let pszMetaLink ← repo.pszMetaLink.mapM host.replaceVars
  let pszMirrorList ← repo.pszMirrorList.mapM host.replaceVars
  let ppszUrlGPGKeys ← repo.ppszUrlGPGKeys.mapM fun urls => urls.mapM host.replaceVars
  return { repo with pszName, ppszBaseUrls, pszMetaLink, pszMirrorList, ppszUrlGPGKeys }

/-- One round of the second loop of `TDNFRepoListFinalize` -/
def finalizeRepo (host : FinalizeHost) (repo : Repo) : Except TdnfError Repo := do
  let repo ← replaceRepoVars host repo
  match cacheNameUrl repo with
  | none => return repo
  | some url =>
    let name ← host.createRepoCacheName repo.pszId url
    return { repo with pszCacheName := some name }

/-- `TDNFRepoListFinalize` -/
def repoListFinalize (host : FinalizeHost) (opts : List CmdOpt) (repos : List Repo) :
    Except TdnfError (List Repo) :=
  if repos = [] then .error .invalidParameter
  else do
    let s ← opts.foldlM (applyOption fnmatch) (repos, false)
    s.1.mapM (finalizeRepo host)

/-! ## What the options are for -/

/-- Whether the id of a repository is the one, or one of those, that an option names. -/
def matchesId (pszId id : Text) : Bool :=
  if isGlob pszId then fnmatch pszId id else id == pszId

/-- What one option makes of the flag of one repository; the second component tells whether
some `repo` or `repoid` came before. -/
def overrideFlag (id : Text) (s : Bool × Bool) (o : CmdOpt) : Bool × Bool :=
  if o.pszOptName = "enablerepo" then
    (if matchesId fnmatch o.pszOptValue id then true else s.1, s.2)
  else if o.pszOptName = "disablerepo" then
    (if matchesId fnmatch o.pszOptValue id then false else s.1, s.2)
  else if o.pszOptName = "repo" ∨ o.pszOptName = "repoid" then
    -- the first of them disables all repositories
    (if matchesId fnmatch o.pszOptValue id then true else s.2 && s.1, true)
  else s

/-- The flag a repository is meant to have after the options. -/
def intendedFlag (opts : List CmdOpt) (repo : Repo) : Bool :=
  (opts.foldl (overrideFlag fnmatch repo.pszId) (repo.nEnabled, false)).1

/-! ## Options as overrides -/

/-- One change that an option makes. -/
structure Override where
  nEnable : Bool
  pszId : Text

/-- The changes an option makes, in order. -/
def overrides (nRepoidSeen : Bool) (o : CmdOpt) : List Override :=
  if o.pszOptName = "enablerepo" then [⟨true, o.pszOptValue⟩]
  else if o.pszOptName = "disablerepo" then [⟨false, o.pszOptValue⟩]
  else if o.pszOptName = "repo" ∨ o.pszOptName = "repoid" then
    (if nRepoidSeen then [] else [⟨false, ['*']⟩]) ++ [⟨true, o.pszOptValue⟩]
  else []

def seenAfter (nRepoidSeen : Bool) (o : CmdOpt) : Bool :=
  nRepoidSeen || decide (o.pszOptName = "repo" ∨ o.pszOptName = "repoid")

def overridesOf : Bool → List CmdOpt → List Override
  | _, [] => []
  | nRepoidSeen, o :: opts =>
    overrides nRepoidSeen o ++ overridesOf (seenAfter nRepoidSeen o) opts

/-- Whether an override changes a repository that is listed after the given ids: by its own id,
or because a glob has matched before. -/
def reachesAfter (before : List Text) (id : Text) (o : Override) : Bool :=
  matchesId fnmatch o.pszId id || (isGlob o.pszId && before.any (matchesId fnmatch o.pszId))

/-- The round of an option, as a sequence of overrides. -/
theorem applyOption_eq (s : List Repo × Bool) (o : CmdOpt) :
    applyOption fnmatch s o = (do
      let repos ← (overrides s.2 o).foldlM
        (fun repos ov => alterRepoState fnmatch repos ov.nEnable ov.pszId) s.1
      return (repos, seenAfter s.2 o)) := by
  obtain ⟨repos, seen⟩ := s
  obtain ⟨name, value⟩ := o
  simp only [applyOption, overrides, seenAfter]
  split_ifs with henable hdisable hrepo hseen
  · subst henable
    simp
  · subst hdisable
    simp
  · simp [hrepo, hseen]
  · simp [hrepo]
  · simp [hrepo]

/-- What an option is meant for is what those of its overrides do that match the id. -/
theorem overrideFlag_eq (hstar : ∀ id, fnmatch ['*'] id = true) (o : CmdOpt) (id : Text)
    (flag seen : Bool) :
    overrideFlag fnmatch id (flag, seen) o =
      (settle (fun o => matchesId fnmatch o.pszId id) Override.nEnable flag (overrides seen o),
        seenAfter seen o) := by
  have hall : matchesId fnmatch ['*'] id = true := hstar id
  obtain ⟨name, value⟩ := o
  simp only [overrideFlag, overrides, seenAfter]
  by_cases henable : name = "enablerepo"
  · simp [henable]
  · by_cases hdisable : name = "disablerepo"
    · simp [hdisable]
    · by_cases hrepo : name = "repo" ∨ name = "repoid"
      · cases seen with
        | true => simp [henable, hdisable, hrepo]
        | false => simp [henable, hdisable, hrepo, hall]
      · simp [henable, hdisable, hrepo]

/-- The intended flag is settled by the overrides that match the id. -/
theorem intendedFlag_eq (hstar : ∀ id, fnmatch ['*'] id = true) (opts : List CmdOpt)
    (id : Text) (flag seen : Bool) :
    (opts.foldl (overrideFlag fnmatch id) (flag, seen)).1 =
      settle (fun o => matchesId fnmatch o.pszId id) Override.nEnable flag
        (overridesOf seen opts) := by
  induction opts generalizing flag seen with
  | nil => rfl
  | cons o opts ih =>
      rw [List.foldl_cons, overrideFlag_eq fnmatch hstar, ih, overridesOf, settle_append]

/-! ## What an override does to a repository at its place -/

/-- The list holds the repository between others with the given ids. -/
def Flanked (ids ids' : List Text) (repo : Repo) (repos : List Repo) : Prop :=
  ∃ before after, repos = before ++ repo :: after ∧ before.map Repo.pszId = ids ∧
    after.map Repo.pszId = ids'

variable {fnmatch} {ids ids' : List Text} {repo : Repo} {repos : List Repo}

theorem Flanked.cons (h : Flanked ids ids' repo repos) (first : Repo) :
    Flanked (first.pszId :: ids) ids' repo (first :: repos) := by
  obtain ⟨before, after, rfl, rfl, rfl⟩ := h
  exact ⟨first :: before, after, rfl, rfl, rfl⟩

@[simp] theorem alterLoop_ids (nEnable : Bool) (pszId : Text) (nMatch : Bool)
    (repos : List Repo) :
    (alterLoop fnmatch nEnable pszId nMatch repos).map Repo.pszId = repos.map Repo.pszId := by
  induction repos generalizing nMatch with
  | nil => rfl
  | cons repo repos ih =>
      simp only [alterLoop]
      split_ifs <;> simp [ih]

/-- A glob changes the first repository it matches and all that follow. -/
theorem alterLoop_glob {pszId : Text} (hglob : isGlob pszId = true) (nEnable nMatch : Bool)
    (before after : List Repo) (repo : Repo) :
    Flanked (before.map Repo.pszId) (after.map Repo.pszId)
      (repo.setEnabled
        (if nMatch || reachesAfter fnmatch (before.map Repo.pszId) repo.pszId ⟨nEnable, pszId⟩
          then nEnable else repo.nEnabled))
      (alterLoop fnmatch nEnable pszId nMatch (before ++ repo :: after)) := by
  induction before generalizing nMatch with
  | nil =>
      refine ⟨[], alterLoop fnmatch nEnable pszId
        (nMatch || fnmatch pszId repo.pszId) after, ?_, rfl, alterLoop_ids _ _ _ _⟩
      simp only [List.nil_append, alterLoop, hglob, if_true, reachesAfter, matchesId, List.map_nil,
        List.any_nil, Bool.and_false, Bool.or_false]
      cases hmatch : nMatch || fnmatch pszId repo.pszId with
      | true => simp
      | false =>
          obtain ⟨rfl, -⟩ := Bool.or_eq_false_iff.mp hmatch
          simp
  | cons first before ih =>
      simp only [List.cons_append, alterLoop, hglob, if_true]
      cases hmatch : nMatch || fnmatch pszId first.pszId with
      | true =>
          have hreach : (nMatch || reachesAfter fnmatch ((first :: before).map Repo.pszId)
              repo.pszId ⟨nEnable, pszId⟩) = true := by
            simp only [reachesAfter, matchesId, hglob, if_true, List.map_cons, List.any_cons,
              Bool.true_and]
            cases nMatch with
            | true => rfl
            | false =>
                rw [Bool.false_or] at hmatch
                simp [hmatch]
          rw [hreach, if_pos rfl, if_pos rfl]
          have hflanked := (ih true).cons (first.setEnabled nEnable)
          simpa using hflanked
      | false =>
          obtain ⟨rfl, hfirst⟩ := Bool.or_eq_false_iff.mp hmatch
          have hflanked := (ih false).cons first
          simpa [reachesAfter, matchesId, hglob, hfirst] using hflanked

/-- A literal changes the one repository that has the id. -/
theorem alterLoop_literal {pszId : Text} (hglob : isGlob pszId = false) (nEnable : Bool)
    (before after : List Repo) (repo : Repo)
    (hids : ((before ++ repo :: after).map Repo.pszId).Nodup) :
    Flanked (before.map Repo.pszId) (after.map Repo.pszId)
      (repo.setEnabled
        (if reachesAfter fnmatch (before.map Repo.pszId) repo.pszId ⟨nEnable, pszId⟩
          then nEnable else repo.nEnabled))
      (alterLoop fnmatch nEnable pszId false (before ++ repo :: after)) := by
  have hreach : ∀ ids, reachesAfter fnmatch ids repo.pszId ⟨nEnable, pszId⟩ =
      (repo.pszId == pszId) := by
    intro ids
    simp [reachesAfter, matchesId, hglob]
  rw [hreach]
  induction before with
  | nil =>
      simp only [List.nil_append, alterLoop, hglob, Bool.false_or]
      cases hmatch : repo.pszId == pszId with
      | true => exact ⟨[], after, rfl, rfl, rfl⟩
      | false => exact ⟨[], _, rfl, rfl, alterLoop_ids _ _ _ _⟩
  | cons first before ih =>
      rw [List.cons_append, List.map_cons, List.nodup_cons] at hids
      obtain ⟨hfirst, hids⟩ := hids
      simp only [List.cons_append, alterLoop, hglob, Bool.false_or]
      cases hmatch : first.pszId == pszId with
      | true =>
          have hne : (repo.pszId == pszId) = false := by
            rw [beq_eq_false_iff_ne]
            intro heq
            apply hfirst
            rw [beq_iff_eq.mp hmatch, ← heq]
            simp
          simp only [hne]
          exact ⟨(first.setEnabled nEnable) :: before, after, rfl, rfl, rfl⟩
      | false => exact (ih hids).cons first

/-- What one override does to a repository at its place. -/
theorem alterRepoState_flanked (hflanked : Flanked ids ids' repo repos)
    (hids : (ids ++ repo.pszId :: ids').Nodup) (o : Override) {repos' : List Repo}
    (h : alterRepoState fnmatch repos o.nEnable o.pszId = .ok repos') :
    Flanked ids ids' (repo.setEnabled
      (if reachesAfter fnmatch ids repo.pszId o then o.nEnable else repo.nEnabled)) repos' := by
  obtain ⟨before, after, rfl, rfl, rfl⟩ := hflanked
  rw [alterRepoState] at h
  split_ifs at h
  cases h
  cases hglob : isGlob o.pszId with
  | true => simpa using alterLoop_glob hglob o.nEnable false before after repo
  | false =>
      apply alterLoop_literal hglob
      simpa using hids

/-- What a sequence of overrides does to a repository at its place. -/
theorem overrides_flanked (hflanked : Flanked ids ids' repo repos)
    (hids : (ids ++ repo.pszId :: ids').Nodup) (os : List Override) {repos' : List Repo}
    (h : os.foldlM (fun repos o => alterRepoState fnmatch repos o.nEnable o.pszId) repos =
      .ok repos') :
    Flanked ids ids' (repo.setEnabled
      (settle (reachesAfter fnmatch ids repo.pszId) Override.nEnable repo.nEnabled os)) repos' := by
  induction os generalizing repo repos with
  | nil =>
      cases h
      exact hflanked
  | cons o os ih =>
      rw [List.foldlM_cons] at h
      obtain ⟨repos₁, halter, hrest⟩ := exists_of_bind_ok h
      exact ih (alterRepoState_flanked hflanked hids o halter) hids hrest

/-- What the options do to a repository at its place. -/
theorem applyOptions_flanked (hflanked : Flanked ids ids' repo repos)
    (hids : (ids ++ repo.pszId :: ids').Nodup) (opts : List CmdOpt) {seen : Bool}
    {s : List Repo × Bool} (h : opts.foldlM (applyOption fnmatch) (repos, seen) = .ok s) :
    Flanked ids ids' (repo.setEnabled (settle (reachesAfter fnmatch ids repo.pszId)
      Override.nEnable repo.nEnabled (overridesOf seen opts))) s.1 := by
  induction opts generalizing repo repos seen with
  | nil =>
      cases h
      exact hflanked
  | cons o opts ih =>
      rw [List.foldlM_cons] at h
      obtain ⟨s₁, happly, hrest⟩ := exists_of_bind_ok h
      rw [applyOption_eq] at happly
      obtain ⟨repos₁, halter, hs₁⟩ := exists_of_bind_ok happly
      cases hs₁
      rw [overridesOf, settle_append]
      exact ih (overrides_flanked hflanked hids (overrides seen o) halter) hids hrest

theorem Flanked.getElem? (h : Flanked ids ids' repo repos) : repos[ids.length]? = some repo := by
  obtain ⟨before, after, rfl, rfl, rfl⟩ := h
  simp

/-- Replacing variables keeps the id and the flag. -/
theorem replaceRepoVars_ok {host : FinalizeHost} {repo' : Repo}
    (h : replaceRepoVars host repo = .ok repo') :
    repo'.pszId = repo.pszId ∧ repo'.nEnabled = repo.nEnabled := by
  obtain ⟨pszName, -, h⟩ := exists_of_bind_ok h
  obtain ⟨ppszBaseUrls, -, h⟩ := exists_of_bind_ok h
  obtain ⟨pszMetaLink, -, h⟩ := exists_of_bind_ok h
  obtain ⟨pszMirrorList, -, h⟩ := exists_of_bind_ok h
  obtain ⟨ppszUrlGPGKeys, -, h⟩ := exists_of_bind_ok h
  cases h
  exact ⟨rfl, rfl⟩

theorem finalizeRepo_ok {host : FinalizeHost} {repo' : Repo}
    (h : finalizeRepo host repo = .ok repo') :
    repo'.pszId = repo.pszId ∧ repo'.nEnabled = repo.nEnabled := by
  obtain ⟨replaced, hreplaced, h⟩ := exists_of_bind_ok h
  have hkept := replaceRepoVars_ok hreplaced
  split at h
  · cases h
    exact hkept
  · obtain ⟨name, -, h⟩ := exists_of_bind_ok h
    cases h
    exact hkept

/-- The ids and flags of a list. -/
def flags (repos : List Repo) : List (Text × Bool) :=
  repos.map fun repo => (repo.pszId, repo.nEnabled)

/-- What `TDNFRepoListFinalize` does to a repository at its place. -/
theorem repoListFinalize_flanked {host : FinalizeHost} {opts : List CmdOpt} {repos' : List Repo}
    (hids : (repos.map Repo.pszId).Nodup)
    (h : repoListFinalize fnmatch host opts repos = .ok repos') {before after : List Repo}
    (hrepos : repos = before ++ repo :: after) :
    ∃ altered, flags repos' = flags altered ∧
      Flanked (before.map Repo.pszId) (after.map Repo.pszId)
        (repo.setEnabled (settle (reachesAfter fnmatch (before.map Repo.pszId) repo.pszId)
          Override.nEnable repo.nEnabled (overridesOf false opts))) altered := by
  rw [repoListFinalize] at h
  split_ifs at h
  obtain ⟨s, happly, hfinal⟩ := exists_of_bind_ok h
  have hflanked : Flanked (before.map Repo.pszId) (after.map Repo.pszId) repo repos :=
    ⟨before, after, hrepos, rfl, rfl⟩
  refine ⟨s.1, ?_, applyOptions_flanked hflanked (by simpa [hrepos] using hids) opts happly⟩
  apply map_of_mapM_ok _ hfinal
  intro r r' hr
  obtain ⟨hid, hflag⟩ := finalizeRepo_ok hr
  rw [hid, hflag]

/-- The flag that `TDNFRepoListFinalize` leaves at each place of the list. -/
theorem flags_getElem? {host : FinalizeHost} {opts : List CmdOpt} {repos' : List Repo}
    (hids : (repos.map Repo.pszId).Nodup)
    (h : repoListFinalize fnmatch host opts repos = .ok repos') {before after : List Repo}
    (hrepos : repos = before ++ repo :: after) :
    (flags repos')[before.length]? = some (repo.pszId,
      settle (reachesAfter fnmatch (before.map Repo.pszId) repo.pszId) Override.nEnable
        repo.nEnabled (overridesOf false opts)) := by
  obtain ⟨altered, hflags, hflanked⟩ := repoListFinalize_flanked hids h hrepos
  have hget := hflanked.getElem?
  rw [List.length_map] at hget
  rw [hflags, flags, List.getElem?_map, hget]
  rfl

theorem flags_length {host : FinalizeHost} {opts : List CmdOpt} {repos' : List Repo}
    (hids : (repos.map Repo.pszId).Nodup)
    (h : repoListFinalize fnmatch host opts repos = .ok repos') :
    (flags repos').length = repos.length := by
  cases repos with
  | nil => cases h
  | cons repo after =>
      obtain ⟨altered, hflags, before, after', rfl, hbefore, hafter⟩ :=
        repoListFinalize_flanked hids h (List.nil_append _).symm
      have hlength := congrArg List.length hafter
      rw [List.map_eq_nil_iff.mp hbefore] at hflags
      rw [hflags]
      simpa [flags] using hlength

/-- Every repository has the flag it is meant to have. -/
def FlagsIntended (fnmatch : Text → Text → Bool) (opts : List CmdOpt)
    (repos repos' : List Repo) : Prop :=
  flags repos' = repos.map fun repo => (repo.pszId, intendedFlag fnmatch opts repo)

instance (fnmatch : Text → Text → Bool) (opts : List CmdOpt) (repos repos' : List Repo) :
    Decidable (FlagsIntended fnmatch opts repos repos') := inferInstanceAs (Decidable (_ = _))

/-- Where the last override that reaches a repository is a glob that only matched before, it
sets the flag the repository is meant to have. -/
def SpillsHarmless (fnmatch : Text → Text → Bool) (opts : List CmdOpt)
    (repos : List Repo) : Prop :=
  ∀ before repo after, repos = before ++ repo :: after →
    ∀ os o os', overridesOf false opts = os ++ o :: os' →
      reachesAfter fnmatch (before.map Repo.pszId) repo.pszId o = true →
      (∀ o' ∈ os', reachesAfter fnmatch (before.map Repo.pszId) repo.pszId o' = false) →
      matchesId fnmatch o.pszId repo.pszId = false →
      o.nEnable = intendedFlag fnmatch opts repo

theorem flagsIntended_iff {host : FinalizeHost} {opts : List CmdOpt} {repos' : List Repo}
    (hids : (repos.map Repo.pszId).Nodup)
    (h : repoListFinalize fnmatch host opts repos = .ok repos') :
    FlagsIntended fnmatch opts repos repos' ↔ ∀ before repo after,
      repos = before ++ repo :: after →
        settle (reachesAfter fnmatch (before.map Repo.pszId) repo.pszId) Override.nEnable
          repo.nEnabled (overridesOf false opts) = intendedFlag fnmatch opts repo := by
  constructor
  · intro hintended before repo after hrepos
    have hget := flags_getElem? hids h hrepos
    rw [hintended, hrepos] at hget
    simpa using hget.symm
  · intro hflag
    apply List.ext_getElem?
    intro i
    by_cases hi : i < repos.length
    · have hsplit : repos = repos.take i ++ repos[i] :: repos.drop (i + 1) := by
        rw [← List.drop_eq_getElem_cons hi, List.take_append_drop]
      have hlength : (repos.take i).length = i := List.length_take_of_le hi.le
      have hget := flags_getElem? hids h hsplit
      rw [hlength, hflag _ _ _ hsplit] at hget
      rw [hget, List.getElem?_map, List.getElem?_eq_getElem hi, Option.map_some]
    · rw [List.getElem?_eq_none, List.getElem?_eq_none]
      · simpa using hi
      · rw [flags_length hids h]
        exact Nat.le_of_not_lt hi

/-- After `TDNFRepoListFinalize` every repository has the flag it is meant to have, exactly if
no glob that spilled over to a repository behind its matches has left another flag there. -/
theorem repoListFinalize_flags_iff (hstar : ∀ id, fnmatch ['*'] id = true)
    (host : FinalizeHost) (opts : List CmdOpt) (hids : (repos.map Repo.pszId).Nodup)
    {repos' : List Repo} (h : repoListFinalize fnmatch host opts repos = .ok repos') :
    FlagsIntended fnmatch opts repos repos' ↔ SpillsHarmless fnmatch opts repos := by
  rw [flagsIntended_iff hids h]
  have hintended : ∀ repo, intendedFlag fnmatch opts repo =
      settle (fun o => matchesId fnmatch o.pszId repo.pszId) Override.nEnable repo.nEnabled
        (overridesOf false opts) := fun repo =>
    intendedFlag_eq fnmatch hstar opts repo.pszId repo.nEnabled false
  have hwider : ∀ (ids : List Text) (id : Text) (o : Override),
      matchesId fnmatch o.pszId id = true → reachesAfter fnmatch ids id o = true := by
    intro ids id o hmatch
    rw [reachesAfter, hmatch, Bool.true_or]
  constructor
  · intro hflag before repo after hrepos
    have hsettle := hflag before repo after hrepos
    rw [hintended] at hsettle ⊢
    exact (settle_eq_iff (hwider _ _) _ _).mp hsettle
  · intro hharmless before repo after hrepos
    have hlast := hharmless before repo after hrepos
    rw [hintended] at hlast ⊢
    exact (settle_eq_iff (hwider _ _) _ _).mpr hlast

end Finalize

/-- Variables stay as they are, and the cache is named after the repository. -/
def plainHost : FinalizeHost := ⟨.ok, fun id _ => .ok id⟩

/-- `fnmatch` for patterns of a prefix and a star. -/
def starMatch (pattern id : Text) : Bool := pattern.dropLast.isPrefixOf id

/-- Three repositories, all but the first enabled. -/
def threeRepos : List Repo :=
  [createRepo true cmdlineRepoName, (createRepo true ['a']).setEnabled true,
    (createRepo true ['b']).setEnabled true]

/-- Disabling `a*` disables the repository `b` behind it. -/
theorem disabled_behind_match :
    (threeRepos.map Repo.pszId).Nodup ∧ ∃ repos',
      repoListFinalize starMatch plainHost [⟨"disablerepo", ['a', '*']⟩] threeRepos =
        .ok repos' ∧
      ¬ FlagsIntended starMatch [⟨"disablerepo", ['a', '*']⟩] threeRepos repos' := by
  refine ⟨by decide, _, rfl, ?_⟩
  decide

/-- The same three repositories with `b` disabled by its own id. -/
theorem repoListFinalize_flags_iff_literal :
    FlagsIntended starMatch [⟨"disablerepo", ['b']⟩] threeRepos
        [createRepo true cmdlineRepoName, (createRepo true ['a']).setEnabled true,
          createRepo true ['b']] ↔
      SpillsHarmless starMatch [⟨"disablerepo", ['b']⟩] threeRepos :=
  repoListFinalize_flags_iff (fun _ => rfl) plainHost _ (by decide) rfl

end Tdnf.Client
