import Mathlib.Data.Set.Insert
import Tdnf.Client.CacheOnly
import Tdnf.Client.RefreshInvalidation

/-!
# Cleaning the cache

`TDNFClean` empties parts of the cache directories of all repositories. What a clean
of a type is to remove is a set of places; it removes these and touches nothing else,
and a refresh after it works on what it downloads itself.
-/

namespace Tdnf.Client.RepoCache

open Procedure PathText FileStore Common Evolution Logging Transition

variable {δ κ : Type}

/-! ## The types of a clean -/

/-- `CLEANTYPE_PACKAGES` -/
def cleanPackages : ℕ := 0x01

/-- `CLEANTYPE_METADATA` -/
def cleanMetadata : ℕ := 0x02

/-- `CLEANTYPE_DBCACHE` -/
def cleanDbCache : ℕ := 0x04

/-- `CLEANTYPE_PLUGINS` -/
def cleanPlugins : ℕ := 0x08

/-- `CLEANTYPE_EXPIRE_CACHE` -/
def cleanExpireCache : ℕ := 0x10

/-- `CLEANTYPE_KEYS` -/
def cleanKeys : ℕ := 0x20

/-- `CLEANTYPE_ALL` -/
def cleanAll : ℕ := 0xff

/-- How a clean fails. -/
inductive CleanFault where
  /-- `ERROR_TDNF_CLI_CLEAN_REQUIRES_OPTION` -/
  | requiresOption
  /-- `ERROR_TDNF_CLI_NO_MATCH` -/
  | cliNoMatch
  /-- `ERROR_TDNF_CLEAN_UNSUPPORTED` -/
  | unsupported
  | code (e : TdnfError)
deriving DecidableEq, Repr

def stCleanTypes : List (Text × ℕ) :=
  [("packages".toList, cleanPackages), ("metadata".toList, cleanMetadata),
    ("dbcache".toList, cleanDbCache), ("plugins".toList, cleanPlugins),
    ("keys".toList, cleanKeys), ("expire-cache".toList, cleanExpireCache),
    ("all".toList, cleanAll)]

/-- `TDNFCliParseCleanType` -/
def parseCleanType (pszCleanType : Text) : Except CleanFault ℕ :=
  match stCleanTypes.find? fun entry => equalsCase pszCleanType entry.1 with
  | some (_, nType) => .ok nType
  | none => .error .cliNoMatch

/-- `TDNFCliParseCleanArgs`; the first command is the clean itself -/
def parseCleanArgs : List Text → Except CleanFault ℕ
  | [] => .ok 0
  | [_] => .error .requiresOption
  | _ :: pszCleanType :: _ => parseCleanType pszCleanType

/-! ## The clean -/

/-- What the system answers a clean. -/
structure CleanEnv (δ κ : Type) extends Env δ κ where
  rmdir : Text → Cache δ → Option ℕ

abbrev CleanProc (δ : Type) := Proc CleanFault (Cache δ)

section Code

variable (env : CleanEnv δ κ) (conf : RefreshConf)

def rpmCacheDir (repo : Repo) : Text := cachePath conf repo ["rpms".toList]

def keysDir (repo : Repo) : Text := cachePath conf repo ["keys".toList]

/-- `TDNFRemoveRpmCache` for its directory, with `TDNFRepoGetRpmCacheDir` -/
def removeRpmCache (dir : Text) : CacheProc δ Unit := do
  match env.access dir (← get) with
  | none => removeDir env.toEnv dir
  | some errno => if errno ≠ 2 then throw (.system errno)

/-- `_TDNFRemoveRepoCacheFile` for its path -/
def removeRepoCacheFile (p : Text) : CacheProc δ Unit := do
  let errno := env.unlink p (← get)
  modify (unlinked env.toEnv p)
  if errno ≠ some 2 then bailSys errno

/-- `TDNFRepoRemoveCacheDir` for its directory -/
def removeCacheDir (dir : Text) : CacheProc δ Unit := do
  match env.rmdir dir (← get) with
  | none => modify fun s => { s with files := s.files.put (locOf dir) .absent }
  | some errno => if errno ≠ 2 then throw (.system errno)

/-- `TDNFRepoRemoveCacheDir`, where the directory may not be empty -/
def removeTopDir (dir : Text) : CacheProc δ Unit := do
  match ← attempt (removeCacheDir env dir) with
  | .ok _ => pure ()
  | .error e => if e ≠ .system 39 then throw e

/-- What is done only for the types with a bit of `mask`. -/
def forType (nCleanType mask : ℕ) (x : CacheProc δ Unit) : CacheProc δ Unit :=
  if nCleanType &&& mask ≠ 0 then x else pure ()

/-- One round of the loop in `TDNFClean` -/
def cleanRepo (nCleanType : ℕ) (repo : Repo) : CacheProc δ Unit := do
  forType nCleanType cleanMetadata (removeDir env.toEnv (repoDataDir conf repo))
  forType nCleanType cleanDbCache (removeDir env.toEnv (solvCacheDir conf repo))
  forType nCleanType cleanPackages (removeRpmCache env (rpmCacheDir conf repo))
  forType nCleanType cleanKeys (removeDir env.toEnv (keysDir conf repo))
  forType nCleanType cleanExpireCache (removeRepoCacheFile env (marker conf repo))
  forType nCleanType cleanExpireCache (removeRepoCacheFile env (mirrorFile conf repo))
  removeTopDir env (cachePath conf repo [])

/-- The repositories that `TDNFClean` goes through -/
def cleanedRepos (repos : List Repo) : List Repo :=
  repos.filter fun repo => repo.pszId ≠ cmdlineRepoName

/-- `TDNFClean` -/
def clean (nCleanType : ℕ) (repos : List Repo) : CleanProc δ Unit :=
  if nCleanType = cleanPlugins then throw .unsupported
  else mapFault .code ((cleanedRepos repos).forM (cleanRepo env conf nCleanType))

/-- `TDNFCliCleanCommand` -/
def cleanCommand (ppszCmds : List Text) (repos : List Repo) : CleanProc δ Unit :=
  match parseCleanArgs ppszCmds with
  | .error e => throw e
  | .ok nCleanType => clean env conf nCleanType repos

end Code

/-! ## What a clean is to remove -/

theorem isName_keys : IsName "keys".toList := by decide

def keysLoc (dir : Loc) : Loc := ⟨"keys".toList, isName_keys⟩ :: dir

section Places

variable (conf : RefreshConf) (nCleanType : ℕ)

/-- All that is at a place and below it, for the types with a bit of `mask`. -/
def under (mask : ℕ) (d : Loc) : Set Loc := {l | nCleanType &&& mask ≠ 0 ∧ d <:+ l}

/-- A single place, for the types with a bit of `mask`. -/
def single (mask : ℕ) (p : Loc) : Set Loc := {l | nCleanType &&& mask ≠ 0 ∧ l = p}

/-- What a clean removes of a repository. -/
def emptiedOf (repo : Repo) : Set Loc :=
  under nCleanType cleanMetadata (dataLoc (cacheLoc conf repo)) ∪
    (under nCleanType cleanDbCache (solvLoc (cacheLoc conf repo)) ∪
      (under nCleanType cleanPackages (rpmsLoc (cacheLoc conf repo)) ∪
        (under nCleanType cleanKeys (keysLoc (cacheLoc conf repo)) ∪
          (single nCleanType cleanExpireCache (locOf (marker conf repo)) ∪
            single nCleanType cleanExpireCache (locOf (mirrorFile conf repo))))))

/-- What a clean removes. -/
def emptied (repos : List Repo) : Set Loc :=
  {l | ∃ repo ∈ repos, l ∈ emptiedOf conf nCleanType repo}

/-- The cache directories themselves, which go when nothing is left in them. -/
def tops (repos : List Repo) : Set Loc := {l | ∃ repo ∈ repos, l = cacheLoc conf repo}

end Places

/-- The places of `K` are empty now, and of the others at most some of `T` became empty. -/
structure Emptied (K T : Set Loc) (s t : Cache δ) : Prop where
  gone : ∀ l ∈ K, t.files l = .absent
  other : ∀ l ∉ K, t.files l = s.files l ∨ l ∈ T ∧ t.files l = .absent
  downloads : t.downloads = s.downloads

/-- Nothing changed but that some places of `K` became empty. -/
structure Within (K : Set Loc) (s t : Cache δ) : Prop where
  files : ∀ l, t.files l = s.files l ∨ l ∈ K ∧ t.files l = .absent
  downloads : t.downloads = s.downloads
  made : t.made = s.made

instance (K : Set Loc) : Std.Refl (Within K : Cache δ → Cache δ → Prop) :=
  ⟨fun _ => ⟨fun _ => .inl rfl, rfl, rfl⟩⟩

instance (K : Set Loc) : IsTrans (Cache δ) (Within K) := by
  refine ⟨fun s t u h h' => ⟨fun l => ?_, h'.downloads.trans h.downloads, h'.made.trans h.made⟩⟩
  obtain hsame | hgone := h'.files l
  · rw [hsame]
    exact h.files l
  · exact .inr hgone

/-- A system that tells the truth and removes what it is asked to remove. -/
structure CleanEnv.Honest (env : CleanEnv δ κ) : Prop where
  removes : ∀ p s l, env.keeps p s l = false
  missing : ∀ p s, env.stat p s = some 2 → s.files (locOf p) = .absent
  unlinked : ∀ p s, env.unlink p s = none → ∀ ctime, s.files (locOf p) ≠ .dir ctime
  notThere : ∀ p s, env.unlink p s = some 2 → s.files (locOf p) = .absent
  empty : ∀ p s, env.rmdir p s = none →
    ∀ l, locOf p <:+ l → l ≠ locOf p → s.files l = .absent

section Spec

variable {env : CleanEnv δ κ} {conf : RefreshConf} {nCleanType : ℕ} {K K' T T' : Set Loc}
  {s t u : Cache δ}

theorem Emptied.refl (T : Set Loc) (s : Cache δ) : Emptied ∅ T s s :=
  ⟨fun _ h => h.elim, fun _ _ => .inl rfl, rfl⟩

/-- First some places, then others. -/
theorem Emptied.trans (h : Emptied K T s t) (h' : Emptied K' T' t u) :
    Emptied (K ∪ K') (T ∪ T') s u := by
  constructor
  · rintro l (hl | hl)
    · by_cases hl' : l ∈ K'
      · exact h'.gone l hl'
      · obtain hsame | ⟨-, hgone⟩ := h'.other l hl'
        · rw [hsame, h.gone l hl]
        · exact hgone
    · exact h'.gone l hl
  · intro l hl
    rw [Set.mem_union, not_or] at hl
    obtain hsame | ⟨hl', hgone⟩ := h'.other l hl.2
    · rw [hsame]
      exact (h.other l hl.1).imp_right fun ⟨hl', hgone⟩ => ⟨.inl hl', hgone⟩
    · exact .inr ⟨.inr hl', hgone⟩
  · exact h'.downloads.trans h.downloads

/-- What a part of a clean does to a tree of files if it succeeds. -/
def Empties (K T : Set Loc) (x : CacheProc δ Unit) : Prop :=
  ∀ s t, Rooted s.files → x.run s = .ok () t → Rooted t.files ∧ Emptied K T s t

theorem empties_pure (T : Set Loc) : Empties ∅ T (pure () : CacheProc δ Unit) := by
  intro s t hrooted h
  cases h
  exact ⟨hrooted, .refl T s⟩

theorem Empties.bind {x y : CacheProc δ Unit} (hx : Empties K T x) (hy : Empties K' T' y) :
    Empties (K ∪ K') (T ∪ T') (do x; y) := by
  intro s t hrooted h
  obtain ⟨_, v, hfirst, hrest⟩ := run_bind_eq_ok.mp h
  obtain ⟨hrooted', hemptied⟩ := hx s v hrooted hfirst
  obtain ⟨hrooted'', hemptied'⟩ := hy v t hrooted' hrest
  exact ⟨hrooted'', hemptied.trans hemptied'⟩

/-- A part that leaves the directories, and what comes after it. -/
theorem Empties.append {x y : CacheProc δ Unit} (hx : Empties K ∅ x) (hy : Empties K' T y) :
    Empties (K ∪ K') T (do x; y) := by
  have hboth := hx.bind hy
  rwa [Set.empty_union] at hboth

theorem removeDir_ok {env : Env δ κ} {p : Text} (h : (removeDir env p).run s = .ok () t) :
    t = cleared env p s := by
  have hspec : wp (removeDir env p) (fun _ t => t = cleared env p s) (fun _ _ => True) s := by
    simp only [removeDir, wp_bind, wp_get, wp_modify, wp_ite, wp_pure, implies_true, and_true]
    intro _
    cases env.nftw p s with
    | none => rfl
    | some errno => trivial
  exact wp_ok hspec h

theorem empties_removeDir (henv : env.Honest) (p : Text) :
    Empties {l | locOf p <:+ l} ∅ (removeDir env.toEnv p) := by
  intro s t hrooted h
  obtain rfl := removeDir_ok h
  refine ⟨hrooted.wipe fun l => henv.removes p s l, fun l hl => ?_, fun l hl => .inl ?_, rfl⟩
  · exact if_pos ⟨hl, henv.removes p s l⟩
  · exact if_neg fun hwiped => hl hwiped.1

theorem empties_removeRpmCache (henv : env.Honest) (p : Text) :
    Empties {l | locOf p <:+ l} ∅ (removeRpmCache env p) := by
  intro s t hrooted h
  rw [removeRpmCache, run_get_bind] at h
  cases haccess : env.access p s with
  | none =>
      rw [haccess] at h
      exact empties_removeDir henv p s t hrooted h
  | some errno =>
      simp only [haccess] at h
      split at h
      · cases h
      · rename_i hmissing
        cases h
        have habsent : s.files (locOf p) = .absent := by
          rw [Env.access] at haccess
          cases hstat : env.stat p s with
          | none =>
              rw [hstat] at haccess
              cases hentry : s.files (locOf p) with
              | absent => rfl
              | dir ctime => simp [hentry] at haccess
              | file x ctime => simp [hentry] at haccess
          | some errno' =>
              rw [hstat] at haccess
              obtain rfl := Option.some.inj haccess
              rw [not_not] at hmissing
              exact henv.missing p s (hmissing ▸ hstat)
        exact ⟨hrooted, fun l hl => hrooted.absent_below habsent hl, fun _ _ => .inl rfl, rfl⟩

theorem empties_removeRepoCacheFile (henv : env.Honest) (p : Text) :
    Empties {locOf p} ∅ (removeRepoCacheFile env p) := by
  intro s t hrooted h
  have hfinal : t = unlinked env.toEnv p s ∧ (env.unlink p s = none ∨ env.unlink p s = some 2) := by
    have hspec : wp (removeRepoCacheFile env p) (fun _ t => t = unlinked env.toEnv p s ∧
        (env.unlink p s = none ∨ env.unlink p s = some 2)) (fun _ _ => True) s := by
      simp only [removeRepoCacheFile, wp_bind, wp_get, wp_modify, wp_ite, wp_pure]
      refine ⟨fun _ => ?_, fun hmissing => ⟨trivial, .inr (not_not.mp hmissing)⟩⟩
      cases henv : env.unlink p s with
      | none => exact ⟨rfl, .inl rfl⟩
      | some errno => trivial
    exact wp_ok hspec h
  obtain ⟨rfl, hnone | hmissing⟩ := hfinal
  · have hfiles : (unlinked env.toEnv p s).files = s.files.put (locOf p) .absent := by
      rw [unlinked, hnone]
      rfl
    have hdownloads : (unlinked env.toEnv p s).downloads = s.downloads := by
      rw [unlinked, hnone]
      rfl
    refine ⟨?_, ?_, fun l hl => .inl ?_, hdownloads⟩
    · rw [hfiles]
      refine hrooted.drop fun l hl hne => ?_
      by_contra hthere
      obtain ⟨ctime, hdir⟩ := hrooted (locOf p) l hl hne hthere
      exact henv.unlinked p s hnone ctime hdir
    · rintro l rfl
      rw [hfiles]
      exact if_pos rfl
    · rw [hfiles]
      exact if_neg hl
  · have hsame : unlinked env.toEnv p s = s := by
      rw [unlinked, hmissing]
      rfl
    rw [hsame]
    refine ⟨hrooted, ?_, fun _ _ => .inl rfl, rfl⟩
    rintro l rfl
    exact henv.notThere p s hmissing

theorem empties_removeTopDir (henv : env.Honest) (p : Text) :
    Empties ∅ {locOf p} (removeTopDir env p) := by
  intro s t hrooted h
  have hfinal : t = s ∨ env.rmdir p s = none ∧
      t = { s with files := s.files.put (locOf p) .absent } := by
    have hspec : wp (removeTopDir env p) (fun _ t => t = s ∨ env.rmdir p s = none ∧
        t = { s with files := s.files.put (locOf p) .absent }) (fun _ _ => True) s := by
      simp only [removeTopDir, wp_bind, wp_attempt, removeCacheDir, wp_get]
      cases hrmdir : env.rmdir p s with
      | none =>
          exact .inr ⟨rfl, rfl⟩
      | some errno =>
          simp only [wp_ite, wp_throw, wp_pure, true_or, implies_true, and_self]
    exact wp_ok hspec h
  obtain rfl | ⟨hnone, rfl⟩ := hfinal
  · exact ⟨hrooted, .refl _ t⟩
  · refine ⟨hrooted.drop (henv.empty p s hnone), fun l hl => hl.elim, fun l _ => ?_, rfl⟩
    by_cases hl : l = locOf p
    · exact .inr ⟨hl, if_pos hl⟩
    · exact .inl (if_neg hl)

/-- A part that is done only for some types. -/
theorem empties_forType {mask : ℕ} {x : CacheProc δ Unit} (hx : Empties K ∅ x) :
    Empties {l | nCleanType &&& mask ≠ 0 ∧ l ∈ K} ∅ (forType nCleanType mask x) := by
  intro s t hrooted h
  by_cases htype : nCleanType &&& mask ≠ 0
  · rw [forType, if_pos htype] at h
    obtain ⟨hrooted', hgone, hother, hdownloads⟩ := hx s t hrooted h
    exact ⟨hrooted', fun l hl => hgone l hl.2, fun l hl => hother l fun h => hl ⟨htype, h⟩,
      hdownloads⟩
  · rw [forType, if_neg htype] at h
    cases h
    exact ⟨hrooted, fun l hl => absurd hl.1 htype, fun _ _ => .inl rfl, rfl⟩

/-- The part of a clean for one directory. -/
theorem empties_under {mask : ℕ} {p : Text} {d : Loc} (hp : locOf p = d) {x : CacheProc δ Unit}
    (hx : Empties {l | locOf p <:+ l} ∅ x) :
    Empties (under nCleanType mask d) ∅ (forType nCleanType mask x) :=
  hp ▸ empties_forType hx

theorem empties_cleanRepo (henv : env.Honest) (repo : Repo) :
    Empties (emptiedOf conf nCleanType repo) {cacheLoc conf repo}
      (cleanRepo env conf nCleanType repo) := by
  have hfile (p : Text) : Empties (single nCleanType cleanExpireCache (locOf p)) ∅
      (forType nCleanType cleanExpireCache (removeRepoCacheFile env p)) :=
    empties_forType (empties_removeRepoCacheFile henv p)
  have hlast := (hfile (mirrorFile conf repo)).bind
    (empties_removeTopDir henv (cachePath conf repo []))
  rw [Set.union_empty, Set.empty_union] at hlast
  refine Empties.append (empties_under (locOf_repoDataDir rfl) (empties_removeDir henv _)) ?_
  refine Empties.append (empties_under (locOf_solvCacheDir rfl) (empties_removeDir henv _)) ?_
  refine Empties.append (empties_under locOf_rpms (empties_removeRpmCache henv _)) ?_
  refine Empties.append (empties_under (locOf_cachePath rfl ⟨_, isName_keys⟩)
    (empties_removeDir henv _)) ?_
  exact (hfile _).append hlast

theorem empties_repos (henv : env.Honest) (repos : List Repo) :
    Empties (emptied conf nCleanType repos) (tops conf repos)
      (repos.forM (cleanRepo env conf nCleanType)) := by
  induction repos with
  | nil =>
      have hnone : emptied conf nCleanType [] = ∅ := by
        ext l
        simp [emptied]
      rw [hnone]
      exact empties_pure _
  | cons repo rest ih =>
      have hemptied : emptied conf nCleanType (repo :: rest) =
          emptiedOf conf nCleanType repo ∪ emptied conf nCleanType rest := by
        ext l
        simp [emptied]
      have htops : tops conf (repo :: rest) = {cacheLoc conf repo} ∪ tops conf rest := by
        ext l
        simp [tops]
      rw [hemptied, htops]
      exact (empties_cleanRepo henv repo).bind ih

/-! ## Nothing else is touched -/

theorem within_cleared {p : Text} (hp : ∀ l, locOf p <:+ l → l ∈ K) (s : Cache δ) :
    Within K s (cleared env.toEnv p s) := by
  refine ⟨fun l => ?_, rfl, rfl⟩
  by_cases hwiped : locOf p <:+ l ∧ env.keeps p s l = false
  · exact .inr ⟨hp l hwiped.1, if_pos hwiped⟩
  · exact .inl (if_neg hwiped)

theorem within_drop {p : Loc} (hp : p ∈ K) (s : Cache δ) :
    Within K s { s with files := s.files.put p .absent } := by
  refine ⟨fun l => ?_, rfl, rfl⟩
  by_cases hl : l = p
  · exact .inr ⟨hl ▸ hp, if_pos hl⟩
  · exact .inl (if_neg hl)

theorem within_removeRpmCache {p : Text} (hp : ∀ l, locOf p <:+ l → l ∈ K) :
    Evolves (Within K) (removeRpmCache env p) := by
  refine Evolves.bind evolves_get fun s => ?_
  cases env.access p s with
  | none => exact evolves_removeDir p (within_cleared hp)
  | some errno => exact Evolves.ite _ (evolves_throw _) (evolves_pure ())

theorem within_removeRepoCacheFile {p : Text} (hp : locOf p ∈ K) :
    Evolves (Within K) (removeRepoCacheFile env p) := by
  have hunlink (s : Cache δ) : Within K s (unlinked env.toEnv p s) := by
    rw [unlinked]
    split_ifs
    · exact refl_of (Within K) s
    · exact within_drop hp s
  refine Evolves.bind evolves_get fun s => ?_
  apply (evolves_modify hunlink).bind
  exact fun _ => Evolves.ite _ (evolves_bailSys _) (evolves_pure ())

theorem within_removeTopDir {p : Text} (hp : locOf p ∈ K) :
    Evolves (Within K) (removeTopDir env p) := by
  have hremove : Evolves (Within K) (removeCacheDir env p) := by
    refine Evolves.bind evolves_get fun s => ?_
    cases env.rmdir p s with
    | none => exact evolves_modify (within_drop hp)
    | some errno => exact Evolves.ite _ (evolves_throw _) (evolves_pure ())
  apply hremove.attempt.bind
  intro result
  cases result with
  | ok _ => exact evolves_pure ()
  | error e => exact Evolves.ite _ (evolves_throw e) (evolves_pure ())

/-- A part that is not done touches nothing. -/
theorem within_forType {mask : ℕ} {x : CacheProc δ Unit}
    (hx : nCleanType &&& mask ≠ 0 → Evolves (Within K) x) :
    Evolves (Within K) (forType nCleanType mask x) := by
  rw [forType]
  split_ifs with htype
  · exact hx htype
  · exact evolves_pure ()

theorem within_cleanRepo {repo : Repo} (hemptied : emptiedOf conf nCleanType repo ⊆ K)
    (htop : cacheLoc conf repo ∈ K) : Evolves (Within K) (cleanRepo env conf nCleanType repo) := by
  have hkeys : locOf (keysDir conf repo) = keysLoc (cacheLoc conf repo) :=
    locOf_cachePath rfl ⟨_, isName_keys⟩
  have hdir {p : Text} (hp : ∀ l, locOf p <:+ l → l ∈ K) :
      Evolves (Within K) (removeDir env.toEnv p) := evolves_removeDir p (within_cleared hp)
  rw [cleanRepo]
  refine (within_forType fun htype => hdir fun l hl => hemptied (.inl ⟨htype, ?_⟩)).bind fun _ => ?_
  · exact (locOf_repoDataDir rfl : locOf (repoDataDir conf repo) = _) ▸ hl
  refine (within_forType fun htype => hdir fun l hl => hemptied (.inr (.inl ⟨htype, ?_⟩))).bind
    fun _ => ?_
  · exact (locOf_solvCacheDir rfl : locOf (solvCacheDir conf repo) = _) ▸ hl
  refine (within_forType fun htype => within_removeRpmCache fun l hl =>
    hemptied (.inr (.inr (.inl ⟨htype, ?_⟩)))).bind fun _ => ?_
  · exact (locOf_rpms : locOf (rpmCacheDir conf repo) = _) ▸ hl
  refine (within_forType fun htype => hdir fun l hl =>
    hemptied (.inr (.inr (.inr (.inl ⟨htype, ?_⟩))))).bind fun _ => ?_
  · exact hkeys ▸ hl
  refine (within_forType fun htype => within_removeRepoCacheFile <|
    hemptied (.inr (.inr (.inr (.inr (.inl ⟨htype, rfl⟩)))))).bind fun _ => ?_
  refine (within_forType fun htype => within_removeRepoCacheFile <|
    hemptied (.inr (.inr (.inr (.inr (.inr ⟨htype, rfl⟩)))))).bind fun _ => ?_
  exact within_removeTopDir htop

theorem within_clean (repos : List Repo) :
    Evolves (Within (emptied conf nCleanType (cleanedRepos repos) ∪ tops conf (cleanedRepos repos)))
      (clean env conf nCleanType repos) := by
  refine Evolves.ite _ (evolves_throw _) (Evolves.mapFault _ ?_)
  refine Evolves.forM_mem fun repo hrepo => ?_
  exact within_cleanRepo (fun l hl => .inl ⟨repo, hrepo, hl⟩) (.inr ⟨repo, hrepo, rfl⟩)

theorem clean_ok (henv : env.Honest) {repos : List Repo} (hrooted : Rooted s.files)
    (h : (clean env conf nCleanType repos).run s = .ok () t) :
    Rooted t.files ∧ Emptied (emptied conf nCleanType (cleanedRepos repos))
      (tops conf (cleanedRepos repos)) s t := by
  rw [clean] at h
  split_ifs at h
  · cases h
  · exact empties_repos henv _ s t hrooted (run_mapFault_eq_ok.mp h)

/-- However a clean ends, it touches only what it is to remove; if it succeeds, all of that is
gone, and of the cache directories themselves at most the empty ones. -/
theorem clean_exact (henv : env.Honest) (conf : RefreshConf) (nCleanType : ℕ) (repos : List Repo)
    (hrooted : Rooted s.files) :
    (∀ l ∉ emptied conf nCleanType (cleanedRepos repos) ∪ tops conf (cleanedRepos repos),
      (finalState ((clean env conf nCleanType repos).run s)).files l = s.files l) ∧
    ∀ t, (clean env conf nCleanType repos).run s = .ok () t →
      Emptied (emptied conf nCleanType (cleanedRepos repos)) (tops conf (cleanedRepos repos)) s t ∧
        Rooted t.files := by
  constructor
  · intro l hl
    exact (((within_clean repos).final s).files l).resolve_right fun h => hl h.1
  · intro t h
    exact (clean_ok henv hrooted h).symm

end Spec

/-! ## Refreshes and cleans in any order -/

/-- What is done to a cache directory. -/
inductive Action (δ κ : Type) where
  | refresh (run : Run δ κ)
  | clean (env : CleanEnv δ κ) (conf : RefreshConf) (ppszCmds : List Text) (repos : List Repo)

namespace Action

/-- The next state of the cache directory. -/
def step (fmt : Formats δ κ) (s : Cache δ) : Action δ κ → Option (Cache δ)
  | .refresh run => RepoCache.step fmt s run
  | .clean env conf ppszCmds repos =>
    some (finalState ((cleanCommand env conf ppszCmds repos).run s))

/-- Refreshes meet their condition; cleans need none. -/
def guard (fmt : Formats δ κ) (part : δ → Text → δ) (dir : Loc) (id : Text) (s : Cache δ) :
    Action δ κ → Prop
  | .refresh run => Guard fmt part dir id s run
  | .clean _ _ _ _ => True

end Action

/-- The data was served in a call that is logged between two states. -/
def ServedBetween (env : Env δ κ) (s t : Cache δ) (data : δ) : Prop :=
  ∃ before url x, s.downloads <+: before ∧ x.downloads = before ++ [url] ∧
    x.downloads <+: t.downloads ∧ env.fetch url x = .saved data none

section Runs

variable {fmt : Formats δ κ} {part : δ → Text → δ} {dir : Loc} {id : Text} {env : Env δ κ}
  {conf : RefreshConf} {repo : Repo} {s t u v : Cache δ} {data : δ}

/-- What only removes files leaves the metadata aside. -/
theorem Within.aside {K : Set Loc} (h : Within K s t) : Aside dir s t := by
  refine ⟨fun l _ => ?_, h.made⟩
  simp only [Files.data]
  obtain hsame | ⟨-, hgone⟩ := h.files l
  · rw [hsame]
    exact .inl rfl
  · rw [hgone]
    exact .inr rfl

theorem aside_cleanCommand (env : CleanEnv δ κ) (conf : RefreshConf) (ppszCmds : List Text)
    (repos : List Repo) : Evolves (Aside dir) (cleanCommand env conf ppszCmds repos) := by
  rw [cleanCommand]
  cases parseCleanArgs ppszCmds with
  | error e => exact evolves_throw e
  | ok nCleanType => exact ⟨fun s => ((within_clean repos).final s).aside⟩

/-- A refresh that finds the invariant is transparent. -/
theorem transparent_of_inv (hsolv : FaithfulSolv fmt) (hinv : Inv fmt part dir id s) {run : Run δ κ}
    (hguard : Guard fmt part dir id s run) : Transparent fmt part dir s run := by
  constructor
  · intro repo content t h hmeta
    rw [refreshRepo] at h
    obtain ⟨_, u, hexpire, hrest⟩ := run_bind_eq_ok.mp h
    simp only [if_true] at hrest
    obtain ⟨result, v, hattempt, hskip⟩ := run_bind_eq_ok.mp hrest
    obtain ⟨rfl, rfl⟩ := skipUnavailable_ok hskip
    exact (loaded_initRepo hsolv hinv hguard hmeta hexpire (run_attempt_eq_ok hattempt)).1
  · rintro hmeta urls t hcome ⟨solv, data, hsome, hdata, hcookie⟩
    obtain rfl := hguard.sameId
    have hinv' : Inv fmt part dir run.repo.pszId t :=
      inv_comeToParts hguard.idName hguard.place hguard.removable hinv hcome
    have hplaced := (hguard.loadable hmeta urls t hcome data hdata).placed
    obtain ⟨content, rfl, -⟩ := (hinv' data hdata hplaced).solv solv hsome
    exact hcookie (hsolv.cookie content _)

/-- Every action keeps the invariant. -/
theorem inv_action (hid : '/' ∉ id) (hsolv : FaithfulSolv fmt) {action : Action δ κ}
    (hinv : Inv fmt part dir id s) (hguard : action.guard fmt part dir id s)
    (h : action.step fmt s = some t) : Inv fmt part dir id t := by
  cases action with
  | refresh run => exact inv_step hsolv hinv hguard h
  | clean env conf ppszCmds repos =>
      obtain rfl := Option.some.inj h
      exact hinv.aside hid ((aside_cleanCommand env conf ppszCmds repos).final s)

/-- However refreshes and cleans have followed each other, the solv cache is transparent for the
next refresh. -/
theorem transparent_between_cleans (hsolv : FaithfulSolv fmt) (hid : '/' ∉ id)
    (hs : Reaches (Action.step fmt) (Action.guard fmt part dir id) emptyCache s) (run : Run δ κ)
    (hguard : Guard fmt part dir id s run) : Transparent fmt part dir s run := by
  have hinv : Inv fmt part dir id s :=
    hs.invariant inv_emptyCache fun _ _ _ h hguard hstep => inv_action hid hsolv h hguard hstep
  exact transparent_of_inv hsolv hinv hguard

/-! ## A refresh after a clean -/

theorem ServedBetween.mono (h : ServedBetween env s t data) {s' t' : Cache δ}
    (hs : Added Cache.downloads s' s) (ht : Added Cache.downloads t t') :
    ServedBetween env s' t' data := by
  obtain ⟨before, url, x, hbefore, hx, hlater, hfetch⟩ := h
  exact ⟨before, url, x, hs.trans hbefore, hx, hlater.trans ht, hfetch⟩

/-- A download that succeeds leaves the data it was served. -/
theorem downloadFile_served (url file : Text) (s : Cache δ) :
    wp (downloadFile env url file)
      (fun _ t => ∃ data, t.files.data (locOf file) = some data ∧ ServedBetween env s t data)
      (fun _ t => Added Cache.downloads s t) s := by
  have hadded : s.downloads <+: s.downloads ++ [url] := List.prefix_append _ _
  simp only [downloadFile, wp_bind, wp_modify, wp_ite, wp_throw, wp_get]
  refine ⟨fun _ => hadded, fun _ => ?_⟩
  cases hfetch : env.fetch url { s with downloads := s.downloads ++ [url] } with
  | refused e => exact hadded
  | failed e => exact hadded
  | saved data chmod =>
      simp only [wp_bind, wp_modify]
      cases chmod with
      | none =>
          exact ⟨data, put_data_self, s.downloads, url,
            { s with downloads := s.downloads ++ [url] }, List.prefix_rfl, rfl, List.prefix_rfl,
            hfetch⟩
      | some errno => exact hadded

theorem tryBaseUrls_served (location file : Text) {urls : List Text} (hurls : urls ≠ [])
    (s : Cache δ) : wp (tryBaseUrls env location file urls)
      (fun _ t => ∃ data, t.files.data (locOf file) = some data ∧ ServedBetween env s t data)
      (fun _ t => Added Cache.downloads s t) s := by
  induction urls generalizing s with
  | nil => exact absurd rfl hurls
  | cons url urls ih =>
      cases urls with
      | nil => exact downloadFile_served _ file s
      | cons url' urls =>
          rw [tryBaseUrls, wp_orElse]
          apply wp_mono (downloadFile_served _ file s)
          · exact fun _ _ hserved => hserved
          · intro _ t hadded
            apply wp_mono (ih (List.cons_ne_nil _ _) t)
            · rintro _ u ⟨data, hdata, hserved⟩
              exact ⟨data, hdata, hserved.mono hadded List.prefix_rfl⟩
            · exact fun _ u hadded' => hadded.trans hadded'
          · simp

theorem downloadFileFromRepo_served {urls : List Text} {location file : Text}
    (h : (downloadFileFromRepo env urls location file).run s = .ok () t) :
    ∃ data, t.files.data (locOf file) = some data ∧ ServedBetween env s t data := by
  have hspec : wp (downloadFileFromRepo env urls location file)
      (fun _ t => ∃ data, t.files.data (locOf file) = some data ∧ ServedBetween env s t data)
      (fun _ t => Added Cache.downloads s t) s := by
    simp only [downloadFileFromRepo, wp_bind, wp_ite, wp_throw]
    refine ⟨fun _ => List.prefix_rfl, fun _ =>
      ⟨fun _ => downloadFile_served _ file s, fun hurls => ?_⟩⟩
    exact tryBaseUrls_served location file hurls s
  exact wp_ok hspec h

theorem logs_downloadEnd : Logs Cache.downloads (downloadEnd env repo) := by
  refine Evolves.bind evolves_get fun s => ?_
  have hlog (urls : List Text) : Logs Cache.downloads (modify fun s =>
      { s with downloads := s.downloads ++ urls } : CacheProc δ Unit) :=
    evolves_modify fun s => List.prefix_append _ _
  apply (hlog _).bind
  intro _
  cases (env.downloadEnd repo s).1 with
  | none => exact evolves_pure ()
  | some e => exact evolves_throw e

theorem log_unlinked (p : Text) (s : Cache δ) : (unlinked env p s).downloads = s.downloads := by
  rw [unlinked]
  split_ifs <;> rfl

theorem log_clearedRpms (s : Cache δ) : (clearedRpms env conf repo s).downloads = s.downloads := by
  simp only [clearedRpms]
  split_ifs <;> rfl

theorem logs_replaceFile (src dst : Text) : Logs Cache.downloads (replaceFile env src dst) := by
  refine Evolves.bind evolves_get fun s => ?_
  refine Evolves.ite _ (evolves_throw _) ?_
  refine Evolves.bind evolves_get fun s => ?_
  exact (evolves_bailSys _).bind fun _ => evolves_modify fun s => List.prefix_rfl

theorem logs_settleRepoMD (nReplaceRepoMD : Bool) :
    Logs Cache.downloads (settleRepoMD fmt env conf repo nReplaceRepoMD) := by
  have hremove : Logs Cache.downloads (modify (removeOld env conf repo) : CacheProc δ Unit) :=
    evolves_modify fun s => added_of_eq (log_unlinked _ _)
  have hclear : Logs Cache.downloads (modify fun s =>
      if conf.nKeepCache then s else clearedRpms env conf repo s : CacheProc δ Unit) := by
    refine evolves_modify fun s => ?_
    split_ifs
    · exact List.prefix_rfl
    · exact added_of_eq (log_clearedRpms s)
  have hreplace : Logs Cache.downloads (replaceRepoMD env conf repo) :=
    hremove.bind fun _ => hclear.bind fun _ =>
      (evolves_makeDirs (fun _ _ => List.prefix_rfl) _).bind fun _ => logs_replaceFile _ _
  have htouch : Logs Cache.downloads (touchFile fmt env (marker conf repo)) :=
    evolves_touchFile _ fun s => List.prefix_rfl
  exact Evolves.ite _ (hreplace.bind fun _ => htouch) htouch

/-- The new `repomd.xml` at hand was served in this run. -/
theorem served_fetchRepoMD {urls : List Text} {cookie : List ℕ} {nReplaceRepoMD : Bool}
    (h : (fetchRepoMD fmt env conf repo urls cookie).run s = .ok nReplaceRepoMD t) :
    ∃ data, t.files.data (locOf (tmpRepoMDFile conf repo)) = some data ∧
      ServedBetween env s t data := by
  rw [fetchRepoMD] at h
  obtain ⟨_, s₁, hensure, hrest₁⟩ := run_bind_eq_ok.mp h
  obtain ⟨_, s₂, hdownload, hrest₂⟩ := run_bind_eq_ok.mp hrest₁
  rw [run_get_bind] at hrest₂
  obtain ⟨replaces, s₃, hcompare, hrest₃⟩ := run_bind_eq_ok.mp hrest₂
  obtain ⟨-, rfl⟩ := run_fromExcept_eq_ok.mp hcompare
  obtain ⟨_, s₄, hend, hreturn⟩ := run_bind_eq_ok.mp hrest₃
  cases hreturn
  obtain ⟨data, hdata, hserved⟩ := downloadFileFromRepo_served hdownload
  refine ⟨data, ?_, hserved.mono ?_ (logs_downloadEnd.ok hend)⟩
  · rw [files_downloadEnd hend]
    exact hdata
  · exact (evolves_ensureDir (fun _ _ => List.prefix_rfl) _).ok hensure

/-- Where there was no `repomd.xml`, a run comes to its parts with one that it was served. -/
theorem served_comeToParts {urls : List Text}
    (hexpire : (expireMetadata env conf repo).run s = .ok () u)
    (hnone : u.files.data (repoMDLoc (cacheLoc conf repo)) = none)
    (h : (comeToParts fmt env conf repo).run s = .ok urls v)
    (hdata : v.files.data (repoMDLoc (cacheLoc conf repo)) = some data) :
    conf.nCacheOnly = false ∧ ServedBetween env s v data := by
  rw [comeToParts, run_bind_ok hexpire] at h
  obtain ⟨_, s₂, hmake, hrest⟩ := run_bind_eq_ok.mp h
  obtain ⟨⟨urls', nNeedDownload, cookie⟩, s₃, hstart, hrest⟩ := run_bind_eq_ok.mp hrest
  have haside : Aside (cacheLoc conf repo) u s₃ :=
    trans_of _ ((evolves_makeDirs aside_mkdir _).attempt.ok hmake)
      ((aside_startRepoMD rfl).ok hstart)
  have hnone' : s₃.files.data (repoMDLoc (cacheLoc conf repo)) = none := by
    obtain hsame | hgone := haside.files _ kept_repoMD
    · rw [hsame, hnone]
    · exact hgone
  by_cases hneed : (nNeedDownload && !conf.nCacheOnly) = true
  · rw [Bool.and_eq_true, Bool.not_eq_true'] at hneed
    simp only [hneed, Bool.not_false, Bool.and_self, if_true] at hrest
    obtain ⟨_, s₄, hdownload, hreturn⟩ := run_bind_eq_ok.mp hrest
    cases hreturn
    rw [downloadRepoMD_eq] at hdownload
    obtain ⟨nReplaceRepoMD, w, hfetch, hsettle⟩ := run_bind_eq_ok.mp hdownload
    refine ⟨hneed.2, ?_⟩
    cases nReplaceRepoMD with
    | false =>
        have hsame := settleRepoMD_keeps hsettle _ inCaches_repoMD
        rw [hsame, (fetchRepoMD_ok hfetch).1 _ inCaches_repoMD, hnone'] at hdata
        cases hdata
    | true =>
        obtain ⟨new, hnew, hserved⟩ := served_fetchRepoMD hfetch
        obtain rfl : new = data := by
          rw [(settleRepoMD_ok hnew hsettle).1] at hdata
          exact Option.some.inj hdata
        refine hserved.mono ?_ ((logs_settleRepoMD true).ok hsettle)
        have hexpired : Added Cache.downloads s u :=
          (evolves_expireMetadata fun _ _ => List.prefix_rfl).ok hexpire
        have hmade : Added Cache.downloads u s₂ :=
          (evolves_makeDirs (fun _ _ => List.prefix_rfl) _).attempt.ok hmake
        exact (hexpired.trans hmade).trans (logs_startRepoMD.ok hstart)
  · simp only [hneed] at hrest
    cases hrest
    rw [hnone'] at hdata
    cases hdata

/-- Without its marker the metadata counts as expired and goes. -/
theorem expireMetadata_unmarked (hkeeps : ∀ p t l, Kept (cacheLoc conf repo) l →
      env.keeps p t l = false)
    (hexpire : 0 ≤ repo.lMetadataExpire) (honline : conf.nCacheOnly = false)
    (hmarker : s.files (locOf (marker conf repo)) = .absent)
    (h : (expireMetadata env conf repo).run s = .ok () t) :
    t.files.data (repoMDLoc (cacheLoc conf repo)) = none := by
  have hplace : locOf (joinPath [cachePath conf repo [], "lastrefresh".toList]) =
      locOf (marker conf repo) := by
    rw [locOf_joined _ ⟨_, isName_marker⟩, locOf_marker rfl]
  have hcond : (0 ≤ repo.lMetadataExpire && !conf.nCacheOnly) = true := by
    rw [honline, decide_eq_true hexpire]
    rfl
  rw [expireMetadata, if_pos hcond, run_get_bind] at h
  obtain ⟨expired, s₁, hsync, hrest⟩ := run_bind_eq_ok.mp h
  obtain ⟨hsync, rfl⟩ := run_fromExcept_eq_ok.mp hsync
  have hexpired : expired = true := by
    rw [shouldSyncMetadata, Env.access, hplace, hmarker] at hsync
    cases hstat : env.stat (joinPath [cachePath conf repo [], "lastrefresh".toList]) s₁ with
    | none =>
        rw [hstat] at hsync
        exact (Except.ok.inj hsync).symm
    | some errno =>
        simp only [hstat] at hsync
        split_ifs at hsync
        exact (Except.ok.inj hsync).symm
  simp only [hexpired, if_true] at hrest
  obtain ⟨_, s₂, hdata, hsolv⟩ := run_bind_eq_ok.mp hrest
  have hgone : s₂.files.data (repoMDLoc (cacheLoc conf repo)) = none := by
    rw [removeDir_ok hdata]
    refine data_cleared ?_ (hkeeps _ _ _ kept_repoMD)
    rw [locOf_repoDataDir rfl]
    exact List.suffix_cons _ _
  have haside : Aside (cacheLoc conf repo) s₂ t := (evolves_removeDir _ (aside_cleared _)).ok hsolv
  obtain hsame | hnone := haside.files _ kept_repoMD
  · rw [hsame, hgone]
  · exact hnone

/-- What a run does behind the point where it comes to its parts. -/
theorem logs_behind_parts {urls : List Text} {content : κ} (hmeta : repo.nHasMetaData = true)
    (hexpire : (expireMetadata env conf repo).run s = .ok () u)
    (h : (initRepo fmt env conf repo).run u = .ok content t)
    (hcome : (comeToParts fmt env conf repo).run s = .ok urls v) : Added Cache.downloads v t := by
  obtain ⟨urls', v', parts, w, w', hcome', huse, hw, hload⟩ := initRepo_ok hmeta hexpire h
  cases hcome.symm.trans hcome'
  have hused : Added Cache.downloads v w := (logs_useRepoMD urls).ok huse
  have htidied : w'.downloads = w.downloads := by
    obtain rfl | rfl := hw
    · rfl
    · rfl
  exact (hused.trans (added_of_eq htidied)).trans ((logs_loadRepo parts).ok hload)

end Runs

/-! ## A plain clean -/

section Plain

/-- A system on which every call succeeds that can, and no cache directory is removed. -/
def plainCleanEnv : CleanEnv (List ℕ) (List ℕ) :=
  { plainServer with
    unlink := fun p s =>
      match s.files (locOf p) with
      | .absent => some 2
      | .dir _ => some 21
      | .file _ _ => none
    rmdir := fun _ _ => some 39 }

theorem honest_plain : plainCleanEnv.Honest := by
  constructor
  · exact fun _ _ _ => rfl
  · exact fun _ _ h => by cases h
  · intro p s h ctime hdir
    simp [plainCleanEnv, hdir] at h
  · intro p s h
    cases hentry : s.files (locOf p) with
    | absent => rfl
    | dir ctime => simp [plainCleanEnv, hentry] at h
    | file x ctime => simp [plainCleanEnv, hentry] at h
  · exact fun _ _ h => by cases h

/-- The plain cache directory with a `repomd.xml`. -/
def repoMDCache : Cache (List ℕ) where
  files := fun l =>
    if l = repoMDLoc plainDir then .file [1] 0
    else if l <:+ repoMDLoc plainDir then .dir 0
    else .absent
  downloads := []
  made := []

theorem rooted_repoMDCache : Rooted repoMDCache.files := by
  intro d l hl hne hthere
  have hsuffix : l <:+ repoMDLoc plainDir := by
    by_contra hnot
    refine hthere ?_
    have hother : l ≠ repoMDLoc plainDir := fun heq => hnot (heq ▸ List.suffix_rfl)
    exact (if_neg hother).trans (if_neg hnot)
  have hbelow : d ≠ repoMDLoc plainDir := by
    rintro rfl
    exact hne (hsuffix.eq_of_length_le hl.length_le)
  exact ⟨0, (if_neg hbelow).trans (if_pos (hl.trans hsuffix))⟩

/-- The plain repository is cleaned. -/
def plainClean (nCleanType : ℕ) : CleanProc (List ℕ) Unit :=
  clean plainCleanEnv (plainConf false) nCleanType [plainRepo]

theorem plainRepo_cleaned : ∃ repo ∈ cleanedRepos [plainRepo],
    cacheLoc (plainConf false) repo = plainDir :=
  ⟨plainRepo, List.mem_filter.mpr ⟨List.mem_singleton_self _, by decide⟩, by decide +kernel⟩

theorem clean_exact_plain : ∃ t, (plainClean cleanMetadata).run repoMDCache = .ok () t ∧
    t.files (repoMDLoc plainDir) = .absent := by
  have hok : succeeded ((plainClean cleanMetadata).run repoMDCache) = true := by decide +kernel
  obtain ⟨_, t, h⟩ := exists_ok_of_succeeded hok
  obtain ⟨-, hclean⟩ := clean_exact honest_plain (plainConf false) cleanMetadata [plainRepo]
    rooted_repoMDCache
  obtain ⟨repo, hrepo, hplace⟩ := plainRepo_cleaned
  refine ⟨t, h, (hclean t h).1.gone _ ⟨repo, hrepo, .inl ⟨by decide, ?_⟩⟩⟩
  rw [hplace]
  exact List.suffix_cons _ _

/-- The cache directory after a first run and a clean of the metadata. -/
def cleanedAfter (run : Run (List ℕ) (List ℕ)) : Cache (List ℕ) :=
  finalState ((cleanCommand plainCleanEnv (plainConf false)
    ["clean".toList, "metadata".toList] [plainRepo]).run (cachedBy run))

theorem transparent_between_cleans_plain : Transparent plainFormats (fun _ _ => [1]) plainDir
    (cleanedAfter plainRun) plainRun := by
  have hfirst : Guard plainFormats (fun _ _ => [1]) plainDir "r".toList emptyCache plainRun :=
    guard_plain (by decide +kernel) (by decide +kernel) (by decide +kernel)
  have hrefresh : GuardedStep (Action.step plainFormats)
      (Action.guard plainFormats (fun _ _ => [1]) plainDir "r".toList) emptyCache
      (cachedBy plainRun) := ⟨.refresh plainRun, hfirst, rfl⟩
  have hclean : GuardedStep (Action.step plainFormats)
      (Action.guard plainFormats (fun _ _ => [1]) plainDir "r".toList) (cachedBy plainRun)
      (cleanedAfter plainRun) :=
    ⟨.clean plainCleanEnv (plainConf false) ["clean".toList, "metadata".toList] [plainRepo],
      trivial, rfl⟩
  exact transparent_between_cleans faithful_plain (by decide)
    ((Relation.ReflTransGen.single hrefresh).tail hclean) plainRun
    (guard_plain (by decide +kernel) (by decide +kernel) (by decide +kernel))

/-- The empty cache directory after a clean. -/
def cleanedEmpty : Cache (List ℕ) := finalState ((plainClean cleanMetadata).run emptyCache)

end Plain

end Tdnf.Client.RepoCache
