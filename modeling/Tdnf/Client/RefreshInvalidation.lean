import Tdnf.Client.SolvCache

/-!
# What a refresh removes

With `--refresh` the `repomd.xml` in the cache is compared with a new one by their
cookies. Whether there was an old one is read off the first byte of its cookie, so
an old file whose cookie begins with 0 counts as missing.
-/

namespace Tdnf.Client.RepoCache

open Procedure PathText FileStore Common Evolution

variable {δ κ : Type}

theorem isName_rpms : IsName "rpms".toList := by decide

def rpmsLoc (dir : Loc) : Loc := ⟨"rpms".toList, isName_rpms⟩ :: dir

/-- The cache directory of a repository -/
def cacheLoc (conf : RefreshConf) (repo : Repo) : Loc := locOf (cachePath conf repo [])

/-! ## The stages of a refresh -/

section Stages

variable (fmt : Formats δ κ) (env : Env δ κ) (conf : RefreshConf) (repo : Repo)

/-- The beginning of `downloadRepoMD`, with `nReplaceRepoMD` -/
def fetchRepoMD (urls : List Text) (cookie : List ℕ) : CacheProc δ Bool := do
  ensureDir env (tmpDir conf repo)
  downloadFileFromRepo env urls "repodata/repomd.xml".toList (tmpRepoMDFile conf repo)
  let nReplaceRepoMD ← fromExcept (replacesRepoMD fmt env conf repo cookie (← get))
  downloadEnd env repo
  return nReplaceRepoMD

/-- The rest of `downloadRepoMD` -/
def settleRepoMD (nReplaceRepoMD : Bool) : CacheProc δ Unit := do
  if nReplaceRepoMD then replaceRepoMD env conf repo
  touchFile fmt env (marker conf repo)

/-- A refresh knows the base URLs in `u`, has downloaded `repomd.xml` in `w`, goes on to parse it in
`v` and ends in `t`. -/
structure Refreshes (s u w v t : Cache δ) (parts : List (Part × Text)) : Prop where
  stages : ∃ urls cookie nReplaceRepoMD,
    (startRepoMD fmt env conf repo).run s = .ok (urls, true, cookie) u ∧
      (fetchRepoMD fmt env conf repo urls cookie).run u = .ok nReplaceRepoMD w ∧
        (settleRepoMD fmt env conf repo nReplaceRepoMD).run w = .ok () v ∧
          ∃ x, (useRepoMD fmt env conf repo urls).run v = .ok parts x ∧
            t = cleared env (tmpDir conf repo) x

end Stages

/-! ## What a refresh should do -/

section Promise

variable (fmt : Formats δ κ) (env : Env δ κ) (conf : RefreshConf) (repo : Repo)

/-- What is read of the `repomd.xml` in the cache, if there is one -/
def oldRepoMD (u : Cache δ) : Option δ :=
  if (env.access (repoMDFile conf repo) u).isSome then none
  else some ((u.files.data (repoMDLoc (cacheLoc conf repo))).getD fmt.noData)

/-- The places of the three caches -/
def InCaches (dir l : Loc) : Prop := dataLoc dir <:+ l ∨ solvLoc dir <:+ l ∨ rpmsLoc dir <:+ l

/-- The places whose files go with a new `repomd.xml` -/
def Outdated (l : Loc) : Prop :=
  l ≠ repoMDLoc (cacheLoc conf repo) ∧ (dataLoc (cacheLoc conf repo) <:+ l ∨
    solvLoc (cacheLoc conf repo) <:+ l ∨
      conf.nKeepCache = false ∧ rpmsLoc (cacheLoc conf repo) <:+ l)

/-- The files of the caches are as they were. -/
def Untouched (u v : Cache δ) : Prop :=
  ∀ l, InCaches (cacheLoc conf repo) l → v.files.data l = u.files.data l

/-- The new `repomd.xml` is in place and the caches are removed. -/
structure Invalidated (new : δ) (u v : Cache δ) : Prop where
  replaced : v.files.data (repoMDLoc (cacheLoc conf repo)) = some new
  removed : ∀ l, Outdated conf repo l → v.files.data l = none
  rpms : conf.nKeepCache = true → ∀ l, rpmsLoc (cacheLoc conf repo) <:+ l →
    v.files.data l = u.files.data l

/-- The caches are removed and `repomd.xml` is replaced if and only if there was none or its cookie
differs from that of the new one. -/
def InvalidatesRight (new : δ) (u v : Cache δ) : Prop :=
  if (oldRepoMD fmt env conf repo u).map fmt.cookie = some (fmt.cookie new) then
    Untouched conf repo u v
  else Invalidated conf repo new u v

/-- The system lets a file go when its directory is removed. -/
inductive Goes (w : Cache δ) (l : Loc) : Prop
  | repodata (hl : dataLoc (cacheLoc conf repo) <:+ l)
      (hkeeps : env.keeps (repoDataDir conf repo) w l = false) : Goes w l
  | solvcache (hl : solvLoc (cacheLoc conf repo) <:+ l)
      (hkeeps : env.keeps (solvCacheDir conf repo) (cleared env (repoDataDir conf repo) w) l =
        false) : Goes w l
  | rpms (hconf : conf.nKeepCache = false) (hl : rpmsLoc (cacheLoc conf repo) <:+ l)
      (haccess : env.access (cachePath conf repo ["rpms".toList]) (removeOld env conf repo w) =
        none)
      (hkeeps : env.keeps (cachePath conf repo ["rpms".toList]) (removeOld env conf repo w) l =
        false) : Goes w l

/-- The condition under which a refresh does what it should -/
def Distinguished (new : δ) (u w : Cache δ) : Prop :=
  if (oldRepoMD fmt env conf repo u).map fmt.cookie = some (fmt.cookie new) then
    (fmt.cookie new).headD 0 ≠ 0 ∨
      u.files.data (repoMDLoc (cacheLoc conf repo)) = some new ∧
        ∀ l, Outdated conf repo l → Goes env conf repo w l → u.files.data l = none
  else ∀ l, Outdated conf repo l → w.files.data l ≠ none → Goes env conf repo w l

end Promise

/-! ## Places of the caches -/

section Places

variable {dir l : Loc} {a b : Name} {env : Env δ κ} {conf : RefreshConf} {repo : Repo}

/-- Below a directory there is one way up to it. -/
theorem name_unique (ha : a :: dir <:+ l) (hb : b :: dir <:+ l) : a = b := by
  have hsuffix := List.suffix_of_suffix_length_le ha hb (by simp)
  have heq := hsuffix.eq_of_length (by simp)
  exact (List.cons.inj heq).1

theorem not_rpms_of_data (h : dataLoc dir <:+ l) : ¬ rpmsLoc dir <:+ l := by
  intro h'
  have hname := name_unique h h'
  simp at hname

theorem not_rpms_of_solv (h : solvLoc dir <:+ l) : ¬ rpmsLoc dir <:+ l := by
  intro h'
  have hname := name_unique h h'
  simp at hname

theorem inCaches_repoMD : InCaches dir (repoMDLoc dir) := .inl (List.suffix_cons _ _)

theorem Outdated.inCaches (h : Outdated conf repo l) : InCaches (cacheLoc conf repo) l := by
  obtain ⟨-, hdata | hsolv | ⟨-, hrpms⟩⟩ := h
  · exact .inl hdata
  · exact .inr (.inl hsolv)
  · exact .inr (.inr hrpms)

/-- No cache holds a file that lies in another directory of the repository. -/
theorem not_inCaches (hname : a.val ∉ ["repodata".toList, "solvcache".toList, "rpms".toList])
    (h : a :: dir <:+ l) : ¬ InCaches dir l := by
  rintro (hdata | hsolv | hrpms)
  · obtain rfl := name_unique h hdata
    simp at hname
  · obtain rfl := name_unique h hsolv
    simp at hname
  · obtain rfl := name_unique h hrpms
    simp at hname

theorem not_inCaches_tmp {name : Name} : ¬ InCaches dir (name :: tmpLoc dir) :=
  not_inCaches (a := ⟨"tmp".toList, isName_tmp⟩) (by decide) (List.suffix_cons _ _)

theorem not_inCaches_marker : ¬ InCaches dir (⟨"lastrefresh".toList, isName_marker⟩ :: dir) :=
  not_inCaches (by decide) (List.suffix_refl _)

theorem locOf_tmpRepoMD : locOf (tmpRepoMDFile conf repo) =
    ⟨"repomd.xml".toList, isName_repoMD⟩ :: tmpLoc (cacheLoc conf repo) :=
  locOf_tmpRepoMDFile rfl

theorem locOf_tmpOf_tmpRepoMD : ∃ name : Name, locOf (tmpOf (tmpRepoMDFile conf repo)) =
    name :: tmpLoc (cacheLoc conf repo) := by
  have htmp : locOf (tmpDir conf repo) = tmpLoc (cacheLoc conf repo) :=
    locOf_cachePath rfl ⟨_, isName_tmp⟩
  have hname : IsName ("repomd.xml".toList ++ ".tmp".toList) := by decide
  have hpath : tmpOf (tmpRepoMDFile conf repo) =
      joinPath [tmpDir conf repo, "repomd.xml".toList ++ ".tmp".toList] := by
    have hstrip := strip_name ⟨_, isName_repoMD⟩
    have hstrip' := strip_name ⟨_, hname⟩
    simp only [tmpOf, tmpRepoMDFile, joinPath, joinNodes, hstrip, hstrip', List.head?_cons]
    split <;> simp
  refine ⟨⟨_, hname⟩, ?_⟩
  rw [hpath, locOf_joined _ ⟨_, hname⟩, htmp]

end Places

/-! ## Steps beside the caches -/

section Steps

variable {fmt : Formats δ κ} {env : Env δ κ} {conf : RefreshConf} {repo : Repo}
  {s t u w v : Cache δ} {dir l : Loc}

/-- The files of the caches stay as they are. -/
def SameCaches (dir : Loc) (s t : Cache δ) : Prop :=
  ∀ l, InCaches dir l → t.files.data l = s.files.data l

instance (dir : Loc) : Std.Refl (SameCaches dir : Cache δ → Cache δ → Prop) :=
  ⟨fun _ _ _ => rfl⟩

instance (dir : Loc) : IsTrans (Cache δ) (SameCaches dir) :=
  ⟨fun _ _ _ h h' l hl => (h' l hl).trans (h l hl)⟩

theorem sameCaches_mkdir (s : Cache δ) (l : Loc) :
    SameCaches dir s { s with files := s.files.mkdir l env.now } :=
  fun _ _ => mkdir_data

theorem sameCaches_put {e : Entry δ} (hl : ¬ InCaches dir l) (s : Cache δ) :
    SameCaches dir s { s with files := s.files.put l e } := by
  intro l' hl'
  refine put_data_of_ne ?_
  rintro rfl
  exact hl hl'

theorem sameCaches_downloadFile (url : Text) :
    Evolves (SameCaches (cacheLoc conf repo)) (downloadFile env url (tmpRepoMDFile conf repo)) := by
  obtain ⟨name, htmp⟩ : ∃ name : Name, locOf (tmpOf (tmpRepoMDFile conf repo)) =
      name :: tmpLoc (cacheLoc conf repo) := locOf_tmpOf_tmpRepoMD
  have hdrop (s : Cache δ) : SameCaches (cacheLoc conf repo) s { s with
      files := s.files.put (locOf (tmpOf (tmpRepoMDFile conf repo))) .absent } := by
    apply sameCaches_put
    rw [htmp]
    exact not_inCaches_tmp
  have hsave (s : Cache δ) (data : δ) : SameCaches (cacheLoc conf repo) s { s with
      files := s.files.put (locOf (tmpRepoMDFile conf repo)) (.file data env.now) } := by
    apply sameCaches_put
    rw [locOf_tmpRepoMD]
    exact not_inCaches_tmp
  have hlog : Evolves (SameCaches (cacheLoc conf repo)) (modify fun s =>
      { s with downloads := s.downloads ++ [url] } : CacheProc δ Unit) :=
    evolves_modify fun s l hl => rfl
  refine hlog.bind fun _ => Evolves.ite _ (evolves_throw _) ?_
  refine Evolves.bind evolves_get fun s => ?_
  cases env.fetch url s with
  | refused e => exact evolves_throw e
  | failed e => exact (evolves_modify hdrop).bind fun _ => evolves_throw e
  | saved data chmod =>
      apply (evolves_modify fun s =>
        trans_of (SameCaches (cacheLoc conf repo)) (hdrop s) (hsave _ data)).bind
      exact fun _ => evolves_bailSys chmod

theorem sameCaches_downloadEnd : Evolves (SameCaches dir) (downloadEnd env repo) := by
  refine Evolves.bind evolves_get fun s => ?_
  have hlog (urls : List Text) : Evolves (SameCaches dir) (modify fun s =>
      { s with downloads := s.downloads ++ urls } : CacheProc δ Unit) :=
    evolves_modify fun s l hl => rfl
  apply (hlog _).bind
  intro _
  cases (env.downloadEnd repo s).1 with
  | none => exact evolves_pure ()
  | some e => exact evolves_throw e

theorem files_downloadEnd (h : (downloadEnd env repo).run s = .ok () t) : t.files = s.files := by
  have hspec : wp (downloadEnd env repo) (fun _ t => t.files = s.files) (fun _ _ => True) s := by
    simp only [downloadEnd, wp_bind, wp_get, wp_modify]
    cases (env.downloadEnd repo s).1 with
    | none => rfl
    | some e => trivial
  exact wp_ok hspec h

theorem sameCaches_touchMarker :
    Evolves (SameCaches (cacheLoc conf repo)) (touchFile fmt env (marker conf repo)) := by
  apply evolves_touchFile
  intro s
  apply sameCaches_put
  rw [locOf_marker rfl]
  exact not_inCaches_marker

/-- A download that succeeds leaves a file. -/
theorem downloadFile_saved (url file : Text) (s : Cache δ) :
    wp (downloadFile env url file) (fun _ t => ∃ data, t.files.data (locOf file) = some data)
      (fun _ _ => True) s := by
  simp only [downloadFile, wp_bind, wp_modify, wp_ite, wp_throw, wp_get]
  refine ⟨fun _ => trivial, fun _ => ?_⟩
  cases env.fetch url { s with downloads := s.downloads ++ [url] } with
  | refused e => trivial
  | failed e => trivial
  | saved data chmod =>
      simp only [wp_bind, wp_modify]
      cases chmod with
      | none => exact ⟨data, put_data_self⟩
      | some errno => trivial

theorem tryBaseUrls_saved (location file : Text) {urls : List Text} (hurls : urls ≠ [])
    (s : Cache δ) : wp (tryBaseUrls env location file urls)
      (fun _ t => ∃ data, t.files.data (locOf file) = some data) (fun _ _ => True) s := by
  induction urls generalizing s with
  | nil => exact absurd rfl hurls
  | cons url urls ih =>
      cases urls with
      | nil => exact downloadFile_saved _ file s
      | cons url' urls =>
          rw [tryBaseUrls, wp_orElse]
          apply wp_mono (downloadFile_saved _ file s)
          · exact fun _ _ hsaved => hsaved
          · exact fun _ t _ => ih (List.cons_ne_nil _ _) t
          · simp

theorem downloadFileFromRepo_saved {urls : List Text} {location file : Text}
    (h : (downloadFileFromRepo env urls location file).run s = .ok () t) :
    ∃ data, t.files.data (locOf file) = some data := by
  have hspec : wp (downloadFileFromRepo env urls location file)
      (fun _ t => ∃ data, t.files.data (locOf file) = some data) (fun _ _ => True) s := by
    simp only [downloadFileFromRepo, wp_bind, wp_ite, wp_throw]
    refine ⟨fun _ => trivial, fun _ => ⟨fun _ => downloadFile_saved _ file s, fun hurls => ?_⟩⟩
    exact tryBaseUrls_saved location file hurls s
  exact wp_ok hspec h

end Steps

/-! ## The decision -/

section Decision

variable {fmt : Formats δ κ} {env : Env δ κ} {conf : RefreshConf} {repo : Repo}
  {s t u w v : Cache δ} {new : δ} {urls : List Text} {cookie : List ℕ} {nReplaceRepoMD : Bool}

/-- What a file that can be read holds. -/
theorem readFile_ok {p : Text} {x : δ} (h : readFile fmt env p s = .ok x) :
    x = (s.files.data (locOf p)).getD fmt.noData := by
  rw [readFile] at h
  cases hopen : env.fopen p s with
  | some errno =>
      rw [hopen] at h
      cases h
  | none =>
      rw [hopen] at h
      rw [Files.data]
      cases hentry : s.files (locOf p) with
      | absent =>
          simp only [hentry] at h
          cases h
      | dir ctime =>
          simp only [hentry] at h
          exact (Except.ok.inj h).symm
      | file y ctime =>
          simp only [hentry] at h
          exact (Except.ok.inj h).symm

theorem cookieForFile_ok {p : Text} (h : cookieForFile fmt env p s = .ok cookie) :
    cookie = fmt.cookie ((s.files.data (locOf p)).getD fmt.noData) := by
  rw [cookieForFile] at h
  cases hread : readFile fmt env p s with
  | error errno =>
      rw [hread] at h
      cases h
  | ok x =>
      rw [hread] at h
      rw [← readFile_ok hread]
      exact (Except.ok.inj h).symm

/-- With `--refresh` a download is needed, and the cookie is that of the old `repomd.xml`. -/
theorem needsRepoMD_refresh (hrefresh : conf.nRefresh = true) {nNeedDownload : Bool}
    (h : needsRepoMD fmt env conf repo u = .ok (nNeedDownload, cookie)) :
    nNeedDownload = true ∧ cookie = ((oldRepoMD fmt env conf repo u).map fmt.cookie).getD [] := by
  rw [needsRepoMD] at h
  rw [oldRepoMD]
  cases haccess : env.access (repoMDFile conf repo) u with
  | none =>
      simp only [haccess, hrefresh] at h
      obtain ⟨x, hx, hreturn⟩ : ∃ x, cookieForFile fmt env (repoMDFile conf repo) u = .ok x ∧
          (true, x) = (nNeedDownload, cookie) := by
        cases hcookie : cookieForFile fmt env (repoMDFile conf repo) u with
        | error e =>
            rw [hcookie] at h
            cases h
        | ok x =>
            rw [hcookie] at h
            exact ⟨x, rfl, Except.ok.inj h⟩
      obtain ⟨rfl, rfl⟩ := Prod.mk.inj hreturn
      refine ⟨rfl, ?_⟩
      rw [cookieForFile_ok hx, locOf_repoMDFile rfl]
      rfl
  | some errno =>
      simp only [haccess, hrefresh] at h
      by_cases hmissing : errno = 2
      · rw [if_pos hmissing] at h
        obtain ⟨rfl, rfl⟩ := Prod.mk.inj (Except.ok.inj h)
        exact ⟨rfl, rfl⟩
      · rw [if_neg hmissing] at h
        cases h

theorem needsRepoMD_of_startRepoMD {nNeedDownload : Bool}
    (h : (startRepoMD fmt env conf repo).run s = .ok (urls, nNeedDownload, cookie) u) :
    needsRepoMD fmt env conf repo u = .ok (nNeedDownload, cookie) := by
  rw [startRepoMD] at h
  obtain ⟨first, s₁, -, hrest⟩ := run_bind_eq_ok.mp h
  obtain ⟨second, s₂, -, hcheck⟩ := run_bind_eq_ok.mp hrest
  rw [checkNeeds] at hcheck
  obtain ⟨_, s₃, -, hneeds⟩ := run_bind_eq_ok.mp hcheck
  rw [run_get_bind] at hneeds
  obtain ⟨result, s₄, hresult, hreturn⟩ := run_bind_eq_ok.mp hneeds
  obtain ⟨hresult, rfl⟩ := run_fromExcept_eq_ok.mp hresult
  cases hreturn
  exact hresult

/-- A download leaves the caches alone, and decides by the cookies. -/
theorem fetchRepoMD_ok
    (h : (fetchRepoMD fmt env conf repo urls cookie).run u = .ok nReplaceRepoMD w) :
    SameCaches (cacheLoc conf repo) u w ∧
      ∃ new, w.files.data (locOf (tmpRepoMDFile conf repo)) = some new ∧
        (nReplaceRepoMD = true ↔ cookie.headD 0 = 0 ∨ cookie ≠ fmt.cookie new) := by
  rw [fetchRepoMD] at h
  obtain ⟨_, s₁, hensure, hrest₁⟩ := run_bind_eq_ok.mp h
  obtain ⟨_, s₂, hdownload, hrest₂⟩ := run_bind_eq_ok.mp hrest₁
  rw [run_get_bind] at hrest₂
  obtain ⟨replaces, s₃, hcompare, hrest₃⟩ := run_bind_eq_ok.mp hrest₂
  obtain ⟨hreplaces, rfl⟩ := run_fromExcept_eq_ok.mp hcompare
  obtain ⟨_, s₄, hend, hreturn⟩ := run_bind_eq_ok.mp hrest₃
  cases hreturn
  constructor
  · have hensured : SameCaches (cacheLoc conf repo) u s₁ :=
      (evolves_ensureDir sameCaches_mkdir _).ok hensure
    have hdownloaded : SameCaches (cacheLoc conf repo) s₁ s₃ :=
      (evolves_downloadFileFromRepo sameCaches_downloadFile _ _).ok hdownload
    exact trans_of _ (trans_of _ hensured hdownloaded) (sameCaches_downloadEnd.ok hend)
  · obtain ⟨new, hnew⟩ := downloadFileFromRepo_saved hdownload
    refine ⟨new, ?_, ?_⟩
    · rw [files_downloadEnd hend]
      exact hnew
    · rw [replacesRepoMD] at hreplaces
      by_cases hzero : cookie.headD 0 = 0
      · rw [if_pos hzero] at hreplaces
        obtain rfl := Except.ok.inj hreplaces
        exact iff_of_true rfl (.inl hzero)
      · rw [if_neg hzero] at hreplaces
        obtain ⟨other, hother, hdecide⟩ := exists_of_bind_ok hreplaces
        obtain rfl := Except.ok.inj hdecide
        rw [cookieForFile_ok hother, hnew, Option.getD_some, decide_eq_true_eq]
        exact ⟨.inr, fun h => h.resolve_left hzero⟩

/-! ## What the decision leads to -/

/-- The files after the removals -/
def removedCaches (env : Env δ κ) (conf : RefreshConf) (repo : Repo) (w : Cache δ) : Cache δ :=
  if conf.nKeepCache then removeOld env conf repo w
  else clearedRpms env conf repo (removeOld env conf repo w)

section Removals

variable {p : Text} {l : Loc}

theorem gone_cleared (h : s.files.data l = none) : (cleared env p s).files.data l = none := by
  obtain hsame | hgone := Shrinks.wipe (fun _ => True) s.files (locOf p) (env.keeps p s) l trivial
  · exact hsame.trans h
  · exact hgone

theorem gone_unlinked (h : s.files.data l = none) : (unlinked env p s).files.data l = none := by
  rw [unlinked]
  split
  · exact h
  · obtain hsame | hgone := Shrinks.drop (fun _ => True) s.files (locOf p) l trivial
    · exact hsame.trans h
    · exact hgone

theorem gone_removed (h : (removeOld env conf repo w).files.data l = none) :
    (removedCaches env conf repo w).files.data l = none := by
  rw [removedCaches]
  split
  · exact h
  · rw [clearedRpms]
    split
    · exact h
    · exact gone_cleared h

theorem kept_cleared (h : ¬ locOf p <:+ l ∨ env.keeps p s l = true) :
    (cleared env p s).files.data l = s.files.data l := by
  simp only [cleared, Files.data, Files.wipe]
  rw [if_neg]
  rintro ⟨hsuffix, hkeeps⟩
  obtain hnot | hkept := h
  · exact hnot hsuffix
  · rw [hkept] at hkeeps
    cases hkeeps

theorem kept_unlinked (h : l ≠ locOf p) :
    (unlinked env p s).files.data l = s.files.data l := by
  rw [unlinked]
  split
  · rfl
  · exact put_data_of_ne h

theorem locOf_rpms : locOf (cachePath conf repo ["rpms".toList]) = rpmsLoc (cacheLoc conf repo) :=
  locOf_cachePath rfl ⟨_, isName_rpms⟩

theorem Goes.inCaches (h : Goes env conf repo w l) : InCaches (cacheLoc conf repo) l := by
  cases h with
  | repodata hl hkeeps => exact .inl hl
  | solvcache hl hkeeps => exact .inr (.inl hl)
  | rpms hconf hl haccess hkeeps => exact .inr (.inr hl)

theorem ne_marker_of_inCaches (hl : InCaches (cacheLoc conf repo) l) :
    l ≠ locOf (marker conf repo) := by
  rintro rfl
  rw [locOf_marker rfl] at hl
  exact not_inCaches_marker hl

theorem ne_tmp_of_inCaches (hl : InCaches (cacheLoc conf repo) l) :
    l ≠ locOf (tmpRepoMDFile conf repo) := by
  rintro rfl
  rw [locOf_tmpRepoMD] at hl
  exact not_inCaches_tmp hl

theorem removed_of_goes (h : Goes env conf repo w l) :
    (removedCaches env conf repo w).files.data l = none := by
  cases h with
  | repodata hl hkeeps =>
      refine gone_removed (gone_unlinked (gone_cleared (data_cleared ?_ hkeeps)))
      rw [locOf_repoDataDir rfl]
      exact hl
  | solvcache hl hkeeps =>
      refine gone_removed (gone_unlinked (data_cleared ?_ hkeeps))
      rw [locOf_solvCacheDir rfl]
      exact hl
  | rpms hconf hl haccess hkeeps =>
      rw [removedCaches, hconf, if_neg Bool.false_ne_true, clearedRpms, haccess]
      refine data_cleared ?_ hkeeps
      rw [locOf_rpms]
      exact hl

theorem removed_of_not_goes (hmarker : l ≠ locOf (marker conf repo))
    (h : ¬ Goes env conf repo w l) :
    (removedCaches env conf repo w).files.data l = w.files.data l := by
  have hdata : (cleared env (repoDataDir conf repo) w).files.data l = w.files.data l := by
    apply kept_cleared
    rw [locOf_repoDataDir rfl, or_iff_not_imp_left, not_not]
    intro hin
    exact Bool.of_not_eq_false fun hkeeps => h (.repodata hin hkeeps)
  have hsolv : (cleared env (solvCacheDir conf repo)
      (cleared env (repoDataDir conf repo) w)).files.data l = w.files.data l := by
    rw [kept_cleared, hdata]
    rw [locOf_solvCacheDir rfl, or_iff_not_imp_left, not_not]
    intro hin
    exact Bool.of_not_eq_false fun hkeeps => h (.solvcache hin hkeeps)
  have hold : (removeOld env conf repo w).files.data l = w.files.data l := by
    rw [removeOld, kept_unlinked hmarker, hsolv]
  rw [removedCaches]
  cases hconf : conf.nKeepCache with
  | true => exact hold
  | false =>
      rw [if_neg Bool.false_ne_true, clearedRpms]
      cases haccess : env.access (cachePath conf repo ["rpms".toList])
          (removeOld env conf repo w) with
      | some errno => exact hold
      | none =>
          simp only [Option.isSome_none, Bool.false_eq_true, if_false]
          rw [kept_cleared, hold]
          rw [locOf_rpms, or_iff_not_imp_left, not_not]
          intro hin
          exact Bool.of_not_eq_false fun hkeeps => h (.rpms hconf hin haccess hkeeps)

end Removals

/-- What a new `repomd.xml` leaves in the caches -/
theorem settleRepoMD_ok (hnew : w.files.data (locOf (tmpRepoMDFile conf repo)) = some new)
    (h : (settleRepoMD fmt env conf repo true).run w = .ok () v) :
    v.files.data (repoMDLoc (cacheLoc conf repo)) = some new ∧
      ∀ l, InCaches (cacheLoc conf repo) l → l ≠ repoMDLoc (cacheLoc conf repo) →
        v.files.data l = (removedCaches env conf repo w).files.data l := by
  rw [settleRepoMD] at h
  simp only [if_true] at h
  obtain ⟨_, s₁, hreplace, htouch⟩ := run_bind_eq_ok.mp h
  have htouched : SameCaches (cacheLoc conf repo) s₁ v := sameCaches_touchMarker.ok htouch
  rw [replaceRepoMD] at hreplace
  obtain ⟨_, s₂, hold, hrest₁⟩ := run_bind_eq_ok.mp hreplace
  obtain ⟨_, s₃, hrpms, hrest₂⟩ := run_bind_eq_ok.mp hrest₁
  obtain ⟨_, s₄, hmake, hrename⟩ := run_bind_eq_ok.mp hrest₂
  cases hold
  cases hrpms
  have hmade : SameData (removedCaches env conf repo w) s₄ :=
    (evolves_makeDirs (fun _ _ _ => mkdir_data) _).ok hmake
  obtain rfl := replaceFile_ok hrename
  have htmp : (removedCaches env conf repo w).files.data (locOf (tmpRepoMDFile conf repo)) =
      some new := by
    rw [removed_of_not_goes, hnew]
    · rw [locOf_tmpRepoMD, locOf_marker rfl]
      simp [tmpLoc]
    · intro hgoes
      exact ne_tmp_of_inCaches hgoes.inCaches rfl
  constructor
  · rw [htouched _ inCaches_repoMD, put_data_of_ne (ne_tmp_of_inCaches inCaches_repoMD),
      locOf_repoMDFile rfl]
    change (s₄.files.put (repoMDLoc (cacheLoc conf repo)) _).data _ = _
    rw [put_data_self]
    exact (hmade _).trans htmp
  · intro l hl hne
    rw [htouched l hl, put_data_of_ne (ne_tmp_of_inCaches hl), put_data_of_ne, hmade]
    rw [locOf_repoMDFile rfl]
    exact hne

theorem settleRepoMD_keeps (h : (settleRepoMD fmt env conf repo false).run w = .ok () v) :
    SameCaches (cacheLoc conf repo) w v :=
  sameCaches_touchMarker.ok h

theorem Goes.outdated {l : Loc} (h : Goes env conf repo w l)
    (hne : l ≠ repoMDLoc (cacheLoc conf repo)) : Outdated conf repo l := by
  cases h with
  | repodata hl hkeeps => exact ⟨hne, .inl hl⟩
  | solvcache hl hkeeps => exact ⟨hne, .inr (.inl hl)⟩
  | rpms hconf hl haccess hkeeps => exact ⟨hne, .inr (.inr ⟨hconf, hl⟩)⟩

theorem not_goes_rpms {l : Loc} (hconf : conf.nKeepCache = true)
    (hl : rpmsLoc (cacheLoc conf repo) <:+ l) : ¬ Goes env conf repo w l := by
  intro h
  cases h with
  | repodata hdata hkeeps => exact not_rpms_of_data hdata hl
  | solvcache hsolv hkeeps => exact not_rpms_of_solv hsolv hl
  | rpms hconf' => simp [hconf] at hconf'

theorem ne_repoMD_of_rpms {l : Loc} (hl : rpmsLoc (cacheLoc conf repo) <:+ l) :
    l ≠ repoMDLoc (cacheLoc conf repo) := by
  rintro rfl
  exact not_rpms_of_data (List.suffix_cons _ _) hl

/-- Where `repomd.xml` was replaced, the caches are invalidated as far as they go. -/
theorem invalidated_iff (hsame : SameCaches (cacheLoc conf repo) u w)
    (hnew : w.files.data (locOf (tmpRepoMDFile conf repo)) = some new)
    (h : (settleRepoMD fmt env conf repo true).run w = .ok () v) :
    Invalidated conf repo new u v ↔
      ∀ l, Outdated conf repo l → w.files.data l ≠ none → Goes env conf repo w l := by
  obtain ⟨hreplaced, hothers⟩ := settleRepoMD_ok hnew h
  constructor
  · rintro ⟨-, hremoved, -⟩ l hl hthere
    by_contra hgoes
    rw [← removed_of_not_goes (ne_marker_of_inCaches hl.inCaches) hgoes,
      ← hothers l hl.inCaches hl.1] at hthere
    exact hthere (hremoved l hl)
  · intro hall
    refine ⟨hreplaced, fun l hl => ?_, fun hconf l hl => ?_⟩
    · rw [hothers l hl.inCaches hl.1]
      by_cases hgoes : Goes env conf repo w l
      · exact removed_of_goes hgoes
      · rw [removed_of_not_goes (ne_marker_of_inCaches hl.inCaches) hgoes]
        by_contra hthere
        exact hgoes (hall l hl hthere)
    · have hin : InCaches (cacheLoc conf repo) l := .inr (.inr hl)
      rw [hothers l hin (ne_repoMD_of_rpms hl),
        removed_of_not_goes (ne_marker_of_inCaches hin) (not_goes_rpms hconf hl)]
      exact hsame l hin

/-- Where `repomd.xml` was replaced, the caches are untouched only if there was nothing to
remove. -/
theorem untouched_iff (hsame : SameCaches (cacheLoc conf repo) u w)
    (hnew : w.files.data (locOf (tmpRepoMDFile conf repo)) = some new)
    (h : (settleRepoMD fmt env conf repo true).run w = .ok () v) :
    Untouched conf repo u v ↔ u.files.data (repoMDLoc (cacheLoc conf repo)) = some new ∧
      ∀ l, Outdated conf repo l → Goes env conf repo w l → u.files.data l = none := by
  obtain ⟨hreplaced, hothers⟩ := settleRepoMD_ok hnew h
  constructor
  · intro huntouched
    refine ⟨(huntouched _ inCaches_repoMD).symm.trans hreplaced, fun l hl hgoes => ?_⟩
    rw [← huntouched l hl.inCaches, hothers l hl.inCaches hl.1]
    exact removed_of_goes hgoes
  · rintro ⟨hold, hnone⟩ l hl
    by_cases hne : l = repoMDLoc (cacheLoc conf repo)
    · rw [hne, hreplaced, hold]
    · rw [hothers l hl hne]
      by_cases hgoes : Goes env conf repo w l
      · rw [removed_of_goes hgoes, hnone l (hgoes.outdated hne) hgoes]
      · rw [removed_of_not_goes (ne_marker_of_inCaches hl) hgoes]
        exact hsame l hl

/-- The first byte of the old cookie decides whether equal files are told apart from none. -/
theorem invalidatesRight_iff_distinguished
    (hcookie : cookie = ((oldRepoMD fmt env conf repo u).map fmt.cookie).getD [])
    (hsame : SameCaches (cacheLoc conf repo) u w)
    (hnew : w.files.data (locOf (tmpRepoMDFile conf repo)) = some new)
    (hdecide : nReplaceRepoMD = true ↔ cookie.headD 0 = 0 ∨ cookie ≠ fmt.cookie new)
    (h : (settleRepoMD fmt env conf repo nReplaceRepoMD).run w = .ok () v) :
    InvalidatesRight fmt env conf repo new u v ↔ Distinguished fmt env conf repo new u w := by
  rw [InvalidatesRight, Distinguished]
  by_cases hequal : (oldRepoMD fmt env conf repo u).map fmt.cookie = some (fmt.cookie new)
  · rw [if_pos hequal, if_pos hequal]
    rw [hequal, Option.getD_some] at hcookie
    subst hcookie
    by_cases hzero : (fmt.cookie new).headD 0 = 0
    · obtain rfl : nReplaceRepoMD = true := hdecide.mpr (.inl hzero)
      rw [untouched_iff hsame hnew h]
      exact (or_iff_right (not_not_intro hzero)).symm
    · obtain rfl : nReplaceRepoMD = false := by
        rw [← Bool.not_eq_true, hdecide]
        rintro (hfirst | hne)
        · exact hzero hfirst
        · exact hne rfl
      refine iff_of_true (fun l hl => ?_) (.inl hzero)
      exact (settleRepoMD_keeps h l hl).trans (hsame l hl)
  · rw [if_neg hequal, if_neg hequal]
    obtain rfl : nReplaceRepoMD = true := by
      rw [hdecide]
      cases hold : oldRepoMD fmt env conf repo u with
      | none =>
          rw [hold] at hcookie
          exact .inl (by rw [hcookie]; rfl)
      | some x =>
          rw [hold] at hcookie hequal
          refine .inr fun heq => hequal ?_
          rw [← heq, hcookie]
          rfl
    exact invalidated_iff hsame hnew h

end Decision

section Runs

variable {fmt : Formats δ κ} {env : Env δ κ} {conf : RefreshConf} {repo : Repo} {s t : Cache δ}
  {parts : List (Part × Text)}

theorem downloadRepoMD_eq (urls : List Text) (cookie : List ℕ) :
    downloadRepoMD fmt env conf repo urls cookie = (do
      settleRepoMD fmt env conf repo (← fetchRepoMD fmt env conf repo urls cookie)) := by
  simp only [downloadRepoMD, fetchRepoMD, settleRepoMD, bind_assoc, pure_bind]

/-- A refresh that succeeds goes through its stages. -/
theorem stages_of_getRepoMD (hrefresh : conf.nRefresh = true) (honline : conf.nCacheOnly = false)
    (h : (getRepoMD fmt env conf repo).run s = .ok parts t) :
    ∃ urls cookie nReplaceRepoMD u w v x,
      (startRepoMD fmt env conf repo).run s = .ok (urls, true, cookie) u ∧
        (fetchRepoMD fmt env conf repo urls cookie).run u = .ok nReplaceRepoMD w ∧
          (settleRepoMD fmt env conf repo nReplaceRepoMD).run w = .ok () v ∧
            (useRepoMD fmt env conf repo urls).run v = .ok parts x ∧
              t = cleared env (tmpDir conf repo) x := by
  rw [getRepoMD] at h
  obtain ⟨⟨urls, nNeedDownload, cookie⟩, u, hstart, hrest⟩ := run_bind_eq_ok.mp h
  obtain ⟨rfl, -⟩ := needsRepoMD_refresh hrefresh (needsRepoMD_of_startRepoMD hstart)
  simp only [honline, Bool.not_false, Bool.and_true, if_true] at hrest
  obtain ⟨x, hbody, rfl⟩ := run_finishing_eq_ok.mp hrest
  obtain ⟨_, v, hdownload, huse⟩ := run_bind_eq_ok.mp hbody
  rw [downloadRepoMD_eq] at hdownload
  obtain ⟨nReplaceRepoMD, w, hfetch, hsettle⟩ := run_bind_eq_ok.mp hdownload
  exact ⟨urls, cookie, nReplaceRepoMD, u, w, v, x, hstart, hfetch, hsettle, huse, rfl⟩

end Runs

/-- A refresh that succeeds does what it should if and only if its condition holds. -/
theorem getRepoMD_invalidatesRight_iff {fmt : Formats δ κ} {env : Env δ κ} {conf : RefreshConf}
    {repo : Repo} {s t : Cache δ} {parts : List (Part × Text)} (hrefresh : conf.nRefresh = true)
    (honline : conf.nCacheOnly = false)
    (h : (getRepoMD fmt env conf repo).run s = .ok parts t) :
    ∃ u w v new, Refreshes fmt env conf repo s u w v t parts ∧
      w.files.data (locOf (tmpRepoMDFile conf repo)) = some new ∧
        (InvalidatesRight fmt env conf repo new u v ↔ Distinguished fmt env conf repo new u w) := by
  obtain ⟨urls, cookie, nReplaceRepoMD, u, w, v, x, hstart, hfetch, hsettle, huse, hx⟩ :=
    stages_of_getRepoMD hrefresh honline h
  obtain ⟨-, hcookie⟩ := needsRepoMD_refresh hrefresh (needsRepoMD_of_startRepoMD hstart)
  obtain ⟨hsame, new, hnew, hdecide⟩ := fetchRepoMD_ok hfetch
  refine ⟨u, w, v, new, ⟨urls, cookie, nReplaceRepoMD, hstart, hfetch, hsettle, x, huse, hx⟩, hnew,
    ?_⟩
  exact invalidatesRight_iff_distinguished hcookie hsame hnew hdecide hsettle

/-! ## A digest that begins with 0 -/

def refreshConf : RefreshConf := { plainConf false with nRefresh := true }

def succeeded {ε σ α : Type} : EStateM.Result ε σ α → Bool
  | .ok _ _ => true
  | .error _ _ => false

theorem exists_ok_of_succeeded {ε σ α : Type} {result : EStateM.Result ε σ α}
    (h : succeeded result = true) : ∃ a t, result = .ok a t := by
  cases result with
  | ok a t => exact ⟨a, t, rfl⟩
  | error e t => cases h

/-- A first refresh of the plain repository -/
theorem getRepoMD_plain : ∃ parts t u w v new,
    (getRepoMD plainFormats plainServer refreshConf plainRepo).run emptyCache = .ok parts t ∧
      Refreshes plainFormats plainServer refreshConf plainRepo emptyCache u w v t parts ∧
        w.files.data (locOf (tmpRepoMDFile refreshConf plainRepo)) = some new ∧
          (InvalidatesRight plainFormats plainServer refreshConf plainRepo new u v ↔
            Distinguished plainFormats plainServer refreshConf plainRepo new u w) := by
  have hok : succeeded ((getRepoMD plainFormats plainServer refreshConf plainRepo).run
      emptyCache) = true := by
    decide +kernel
  obtain ⟨parts, t, h⟩ := exists_ok_of_succeeded hok
  obtain ⟨u, w, v, new, hrest⟩ := getRepoMD_invalidatesRight_iff rfl rfl h
  exact ⟨parts, t, u, w, v, new, h, hrest⟩

/-- A `repomd.xml` whose SHA-256 behind `SOLV_COOKIE_IDENT` begins with 0 -/
def zeroRepoMD : List ℕ :=
  ("<repomd><revision>502</revision><data type=\"primary\"><location " ++
    "href=\"repodata/primary.xml\"/></data></repomd>").toList.map Char.toNat

/-- The plain formats with the digest of this file and the location of its part -/
def zeroFormats : Formats (List ℕ) (List ℕ) :=
  { plainFormats with
    cookie := fun data =>
      if data = zeroRepoMD then
        [0, 95, 216, 73, 189, 35, 46, 201, 208, 39, 171, 145, 13, 154, 226, 136, 11, 116, 111, 236,
          84, 47, 108, 198, 219, 53, 86, 231, 135, 61, 153, 111]
      else 1 :: data
    location := fun data part =>
      if data = zeroRepoMD ∧ part = .primary then some "repodata/primary.xml".toList else none }

def zeroServer : Env (List ℕ) (List ℕ) := plainEnv fun _ => .saved zeroRepoMD none

/-- The cache directory with this file and what was loaded from it -/
def zeroCache : Cache (List ℕ) :=
  let files : Files (List ℕ) := fun _ => .absent
  ⟨(files.put (repoMDLoc plainDir) (.file zeroRepoMD 0)).put (solvPlace plainDir "r".toList)
    (.file [] 0), [], []⟩

/-- The same file is downloaded again, and the caches are removed. -/
theorem zero_digest_invalidates : ∃ parts t u w v,
    (getRepoMD zeroFormats zeroServer refreshConf plainRepo).run zeroCache = .ok parts t ∧
      Refreshes zeroFormats zeroServer refreshConf plainRepo zeroCache u w v t parts ∧
        w.files.data (locOf (tmpRepoMDFile refreshConf plainRepo)) = some zeroRepoMD ∧
          ¬ InvalidatesRight zeroFormats zeroServer refreshConf plainRepo zeroRepoMD u v := by
  have hok : succeeded ((getRepoMD zeroFormats zeroServer refreshConf plainRepo).run
      zeroCache) = true := by
    decide +kernel
  obtain ⟨parts, t, h⟩ := exists_ok_of_succeeded hok
  obtain ⟨urls, cookie, nReplaceRepoMD, u, w, v, x, hstart, hfetch, hsettle, huse, hx⟩ :=
    stages_of_getRepoMD rfl rfl h
  obtain ⟨-, hcookie⟩ := needsRepoMD_refresh rfl (needsRepoMD_of_startRepoMD hstart)
  obtain ⟨hsame, new, hnew, hdecide⟩ := fetchRepoMD_ok hfetch
  have hu : u = finalState ((startRepoMD zeroFormats zeroServer refreshConf plainRepo).run
      zeroCache) := by
    rw [hstart]
    rfl
  have hw : w = finalState ((do
      let known ← startRepoMD zeroFormats zeroServer refreshConf plainRepo
      fetchRepoMD zeroFormats zeroServer refreshConf plainRepo known.1 known.2.2).run
      zeroCache) := by
    rw [run_bind_ok hstart, hfetch]
    rfl
  have hdir : cacheLoc refreshConf plainRepo = plainDir := by decide +kernel
  have hdownloaded : w.files.data (locOf (tmpRepoMDFile refreshConf plainRepo)) =
      some zeroRepoMD := by
    rw [hw]
    decide +kernel
  obtain rfl : new = zeroRepoMD := Option.some.inj (hnew.symm.trans hdownloaded)
  have hequal : (oldRepoMD zeroFormats zeroServer refreshConf plainRepo u).map zeroFormats.cookie =
      some (zeroFormats.cookie zeroRepoMD) := by
    rw [hu]
    decide +kernel
  have hsolv : u.files.data (solvPlace plainDir "r".toList) = some [] := by
    rw [hu]
    decide +kernel
  refine ⟨parts, t, u, w, v, h,
    ⟨urls, cookie, nReplaceRepoMD, hstart, hfetch, hsettle, x, huse, hx⟩, hnew, ?_⟩
  rw [invalidatesRight_iff_distinguished hcookie hsame hnew hdecide hsettle, Distinguished,
    if_pos hequal, hdir]
  rintro (hfirst | ⟨-, hnone⟩)
  · exact hfirst (by decide +kernel)
  · have hbelow : solvLoc (cacheLoc refreshConf plainRepo) <:+ solvPlace plainDir "r".toList := by
      decide +kernel
    have hother : solvPlace plainDir "r".toList ≠ repoMDLoc (cacheLoc refreshConf plainRepo) := by
      decide +kernel
    have hgone := hnone _ ⟨hother, .inr (.inl hbelow)⟩ (.solvcache hbelow rfl)
    rw [hsolv] at hgone
    cases hgone

end Tdnf.Client.RepoCache
