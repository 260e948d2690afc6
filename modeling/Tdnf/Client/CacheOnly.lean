import Tdnf.Client.RepoEffects
import Tdnf.Library.Logging

/-!
# Refreshing from the cache only

A refresh with `nCacheOnly` keeps `repomd.xml` as it is. The metalink plugin, the
mirror list and the parts of the metadata have no such guard: what of them is
missing, or too old, is downloaded. The log of downloads stays as it is exactly
if no run comes to such a file.
-/

namespace Tdnf.Client.RepoCache

open Procedure PathText FileStore Common Evolution Logging

variable {δ κ : Type} {fmt : Formats δ κ} {env : Env δ κ} {conf : RefreshConf} {repo : Repo}
  {s : Cache δ}

/-! ## What is never downloaded -/

section Steps

theorem silent_makeDirs (path : Text) (s : Cache δ) :
    Silent Cache.downloads (makeDirs env path) s :=
  have hsame : Evolves (Same Cache.downloads) (makeDirs env path) :=
    evolves_makeDirs (fun _ _ => rfl) path
  hsame.final s

theorem silent_ensureDir (path : Text) (s : Cache δ) :
    Silent Cache.downloads (ensureDir env path) s :=
  have hsame : Evolves (Same Cache.downloads) (ensureDir env path) :=
    evolves_ensureDir (fun _ _ => rfl) path
  hsame.final s

theorem silent_bailSys (errno : Option ℕ) (s : Cache δ) :
    Silent Cache.downloads (bailSys errno) s :=
  have hsame : Evolves (Same Cache.downloads) (bailSys errno : CacheProc δ Unit) :=
    evolves_bailSys errno
  hsame.final s

@[simp] theorem unlinked_downloads (p : Text) (s : Cache δ) :
    (unlinked env p s).downloads = s.downloads := by
  simp only [unlinked]
  split <;> rfl

@[simp] theorem cleared_downloads (dir : Text) (s : Cache δ) :
    (cleared env dir s).downloads = s.downloads := rfl

@[simp] theorem removeOld_downloads (s : Cache δ) :
    (removeOld env conf repo s).downloads = s.downloads := by
  simp [removeOld]

@[simp] theorem clearedRpms_downloads (s : Cache δ) :
    (clearedRpms env conf repo s).downloads = s.downloads := by
  simp only [clearedRpms]
  split <;> rfl

theorem silent_useMetaDataCache (cookie : List ℕ) (s : Cache δ) :
    Silent Cache.downloads (useMetaDataCache fmt env conf repo cookie) s := by
  apply silent_get_bind.mpr
  cases readFile fmt env (solvFilePath conf repo) s with
  | error errno => exact silent_pure none
  | ok data =>
      simp only [silent_ite, silent_throw_bind]
      refine ⟨fun _ => trivial, fun _ => ?_⟩
      cases fmt.addSolv data with
      | none => exact silent_throw _
      | some content => exact silent_pure (some content)

theorem silent_createMetaDataCache (content : κ) (cookie : List ℕ) (parts : List Part)
    (s : Cache δ) :
    Silent Cache.downloads (createMetaDataCache fmt env conf repo content cookie parts) s := by
  have hwrite (s : Cache δ) : Silent Cache.downloads
      (writeMetaDataCache fmt env conf repo content cookie parts) s := by
    apply silent_get_bind.mpr
    cases env.writeSolv s with
    | none => rfl
    | some e => exact silent_throw e
  apply silent_get_bind.mpr
  cases env.access (solvCacheDir conf repo) s with
  | none => exact hwrite s
  | some errno =>
      simp only [silent_ite, silent_throw_bind]
      exact ⟨fun _ => trivial, fun _ => (silent_ensureDir _ s).bind fun _ t _ => hwrite t⟩

theorem silent_loadRepo (parts : List (Part × Text)) (s : Cache δ) :
    Silent Cache.downloads (loadRepo fmt env conf repo parts) s := by
  apply silent_get_bind.mpr
  apply (silent_fromExcept _).bind
  intro cookie t _
  apply (silent_useMetaDataCache cookie t).bind
  intro used u _
  cases used with
  | some content => exact silent_pure content
  | none =>
      apply silent_get_bind.mpr
      apply (silent_fromExcept _).bind
      intro content v _
      apply (silent_createMetaDataCache content cookie _ v).bind
      exact fun _ _ _ => silent_pure content

end Steps

/-! ## What is downloaded -/

section Downloads

/-- Every call is logged, however it ends. -/
theorem downloadFile_log (url file : Text) (s : Cache δ) :
    (finalState ((downloadFile env url file).run s)).downloads = s.downloads ++ [url] := by
  apply log_modify_bind
  simp only [silent_ite, silent_throw_bind, silent_get_bind]
  refine ⟨fun _ => trivial, fun _ => ?_⟩
  cases env.fetch url _ with
  | refused e => exact silent_throw e
  | failed e => exact (silent_modify rfl).bind fun _ _ _ => silent_throw e
  | saved data chmod => exact (silent_modify rfl).bind fun _ t _ => silent_bailSys chmod t

theorem logs_downloadFile (url file : Text) : Logs Cache.downloads (downloadFile env url file) := by
  constructor
  intro s
  rw [Added, downloadFile_log]
  exact List.prefix_append _ _

theorem not_silent_downloadFile (url file : Text) (s : Cache δ) :
    ¬ Silent Cache.downloads (downloadFile env url file) s := by
  rw [Silent, downloadFile_log]
  simp

/-- A part of the metadata with a location is asked for. -/
theorem not_silent_downloadFileFromRepo (urls : List Text) {location file : Text}
    (hlocation : location ≠ []) (hfile : file ≠ []) (s : Cache δ) :
    ¬ Silent Cache.downloads (downloadFileFromRepo env urls location file) s := by
  simp only [downloadFileFromRepo, hlocation, hfile, or_self, if_false]
  cases urls with
  | nil => exact not_silent_downloadFile location file s
  | cons url urls =>
      cases urls with
      | nil => exact not_silent_downloadFile _ file s
      | cons url' urls =>
          intro h
          apply not_silent_downloadFile _ file s
          exact silent_of_orElse (logs_downloadFile _ file)
            (evolves_tryBaseUrls (fun url => logs_downloadFile url file) location _) h

end Downloads

/-! ## What has to be at hand -/

section Conditions

variable (fmt : Formats δ κ) (env : Env δ κ) (conf : RefreshConf) (repo : Repo)

/-- The metalink plugin does not come to download a metalink file. -/
def MetalinkAtHand (s : Cache δ) : Prop :=
  repo.pszId ≠ [] → repo.pszId ∈ conf.metalinkRepos → needsMetalink env conf repo s = true →
    ∀ t, (ensureDir env (joinedDataDir conf repo)).run s ≠ .ok () t

/-- The base URLs that the repository has without downloading a metalink file. -/
def keptUrls (s : Cache δ) : Except TdnfError (List Text) :=
  if repo.pszId = [] then .error .invalidParameter
  else if repo.pszId ∈ conf.metalinkRepos then
    if needsMetalink env conf repo s then .error .fileNotFound
    else metalinkBaseUrls fmt env conf repo s
  else .ok (repo.ppszBaseUrls.getD [])

/-- The mirror list is not downloaded. -/
def MirrorListAtHand (s : Cache δ) : Prop :=
  repo.pszMirrorList ≠ none → needsMirrorList env conf repo s ≠ .ok true

/-- The base URLs that the repository has without downloading the mirror list. -/
def listedUrls (urls : List Text) (s : Cache δ) : Except TdnfError (List Text) :=
  match repo.pszMirrorList with
  | none => .ok urls
  | some _ => do
    let _ ← needsMirrorList env conf repo s
    mirrorBaseUrls fmt env conf repo s

/-- No part is missing before one that is refused. -/
def PartsAtHand (s : Cache δ) : List (Part × Text) → Prop
  | [] => True
  | part :: parts => part.2 ≠ [] → env.access (partPath conf repo part.2) s ≠ some 2 ∧
      (env.access (partPath conf repo part.2) s = none → PartsAtHand s parts)

/-- Wherever the run comes to a file that it would download, the file is at hand. -/
def Offline (s : Cache δ) : Prop :=
  MetalinkAtHand env conf repo s ∧ ∀ urls, keptUrls fmt env conf repo s = .ok urls →
    MirrorListAtHand env conf repo s ∧ ∀ urls', listedUrls fmt env conf repo urls s = .ok urls' →
      checkBaseUrls urls' = .ok () → ∀ need, needsRepoMD fmt env conf repo s = .ok need →
        ∀ md, parseRepoMD fmt env conf repo s = .ok md →
          PartsAtHand env conf repo s (wantedParts repo md)

end Conditions

section Stages

theorem partPath_ne_nil (location : Text) : partPath conf repo location ≠ [] := by
  simp only [partPath, ne_eq, List.append_eq_nil_iff, not_and]
  intro _
  split
  · rename_i h
    rintro rfl
    cases h
  · exact List.cons_ne_nil _ _

theorem logs_metalinkStart : Logs Cache.downloads (metalinkStart fmt env conf repo) :=
  evolves_metalinkStart (fun _ _ => List.prefix_rfl) fun url => logs_downloadFile url _

/-- Once its directory is there, a metalink file is downloaded. -/
theorem silent_metalinkFile (dir url file : Text) {rest : Unit → CacheProc δ (List Text)}
    (hrest : ∀ a, Logs Cache.downloads (rest a)) :
    Silent Cache.downloads (ensureDir env dir >>= fun _ => downloadFile env url file >>= rest) s ↔
      ∀ t, (ensureDir env dir).run s ≠ .ok () t := by
  have hdownload : Logs Cache.downloads (downloadFile env url file >>= rest) :=
    (logs_downloadFile url file).bind hrest
  rw [silent_bind (logs_of_silent (silent_ensureDir dir)) fun _ => hdownload]
  constructor
  · rintro ⟨_, hnext⟩ t hrun
    have hsilent := hnext () t hrun
    rw [silent_bind (logs_downloadFile url file) hrest] at hsilent
    exact not_silent_downloadFile url file t hsilent.1
  · intro hnever
    exact ⟨silent_ensureDir dir s, fun _ t hrun => absurd hrun (hnever t)⟩

theorem silent_metalinkStart :
    Silent Cache.downloads (metalinkStart fmt env conf repo) s ↔
      MetalinkAtHand env conf repo s := by
  have hrest (_ : Unit) : Logs Cache.downloads (do
      fromExcept (metalinkBaseUrls fmt env conf repo (← get)) : CacheProc δ (List Text)) :=
    evolves_get.bind fun s => evolves_fromExcept _
  have hfile : _ ↔ ∀ t, (ensureDir env (joinedDataDir conf repo)).run s ≠ .ok () t :=
    silent_metalinkFile _ (repo.pszMetaLink.getD []) (metalinkFile conf repo) hrest
  simp only [metalinkStart, MetalinkAtHand, silent_ite, silent_throw_bind, silent_get_bind,
    silent_pure, silent_fromExcept, hfile]
  tauto

theorem metalinkStart_ok (h : MetalinkAtHand env conf repo s) {urls : List Text} {t : Cache δ} :
    (metalinkStart fmt env conf repo).run s = .ok urls t ↔
      keptUrls fmt env conf repo s = .ok urls ∧ t = s := by
  by_cases hid : repo.pszId = []
  · simp only [metalinkStart, keptUrls, hid, if_true]
    constructor <;> intro hrun
    · cases hrun
    · cases hrun.1
  · by_cases hlisted : repo.pszId ∈ conf.metalinkRepos
    · simp only [metalinkStart, keptUrls, hid, hlisted, if_true, if_false, run_get_bind]
      by_cases hneeds : needsMetalink env conf repo s = true
      · simp only [hneeds, if_true]
        constructor
        · intro hrun
          obtain ⟨a, u, hdir, _⟩ := run_bind_eq_ok.mp hrun
          exact absurd hdir (h hid hlisted hneeds u)
        · intro hrun
          cases hrun.1
      · simp only [hneeds, Bool.false_eq_true, if_false]
        rw [run_get_bind, run_fromExcept_eq_ok]
    · simp only [metalinkStart, keptUrls, hid, hlisted, if_false]
      exact run_fromExcept_eq_ok (x := .ok (repo.ppszBaseUrls.getD []))

theorem logs_getMirrorList (urls : List Text) :
    Logs Cache.downloads (getMirrorList fmt env conf repo urls) :=
  evolves_getMirrorList urls fun url => logs_downloadFile url _

theorem silent_getMirrorList (urls : List Text) :
    Silent Cache.downloads (getMirrorList fmt env conf repo urls) s ↔
      MirrorListAtHand env conf repo s := by
  have hurls : Logs Cache.downloads (do
      fromExcept (mirrorBaseUrls fmt env conf repo (← get)) : CacheProc δ (List Text)) :=
    evolves_get.bind fun s => evolves_fromExcept _
  simp only [getMirrorList, MirrorListAtHand]
  cases repo.pszMirrorList with
  | none => simp
  | some url =>
      have hrest (needed : Bool) : Logs Cache.downloads (do
          if needed then downloadFile env url (mirrorFile conf repo)
          fromExcept (mirrorBaseUrls fmt env conf repo (← get)) : CacheProc δ (List Text)) :=
        ((logs_downloadFile url _).bind fun _ => hurls).ite _ hurls
      rw [silent_get_bind, silent_bind (evolves_fromExcept _) hrest]
      constructor
      · rintro ⟨_, hnext⟩ _ hneeded
        have hsilent := hnext true s (run_fromExcept_eq_ok.mpr ⟨hneeded, rfl⟩)
        rw [if_pos rfl, silent_bind (logs_downloadFile url _) fun _ => hurls] at hsilent
        exact not_silent_downloadFile url _ s hsilent.1
      · intro hnever
        refine ⟨silent_fromExcept _, ?_⟩
        intro needed t hrun
        obtain ⟨hneeded, rfl⟩ := run_fromExcept_eq_ok.mp hrun
        cases needed with
        | true => exact absurd hneeded (hnever (Option.some_ne_none url))
        | false => exact silent_fromExcept _

theorem getMirrorList_ok (h : MirrorListAtHand env conf repo s) {urls urls' : List Text}
    {t : Cache δ} :
    (getMirrorList fmt env conf repo urls).run s = .ok urls' t ↔
      listedUrls fmt env conf repo urls s = .ok urls' ∧ t = s := by
  simp only [getMirrorList, listedUrls, MirrorListAtHand] at h ⊢
  cases hlist : repo.pszMirrorList with
  | none => exact run_fromExcept_eq_ok (x := .ok urls)
  | some url =>
      have hneeds := h (by simp [hlist])
      cases hneeded : needsMirrorList env conf repo s with
      | error e =>
          have herror : (fromExcept (needsMirrorList env conf repo s) : CacheProc δ Bool).run s =
              .error e s := by
            rw [hneeded]
            rfl
          simp only [run_get_bind]
          rw [run_bind_error herror]
          constructor <;> intro hrun
          · cases hrun
          · cases hrun.1
      | ok needed =>
          cases needed with
          | true => exact absurd hneeded hneeds
          | false =>
              have hok : (fromExcept (needsMirrorList env conf repo s) : CacheProc δ Bool).run s =
                  .ok false s := run_fromExcept_eq_ok.mpr ⟨hneeded, rfl⟩
              simp only [run_get_bind]
              rw [run_bind_ok hok]
              exact run_fromExcept_eq_ok

theorem logs_downloadRepoMDPart (urls : List Text) (location : Text) :
    Logs Cache.downloads (downloadRepoMDPart env conf repo urls location) :=
  evolves_downloadRepoMDPart urls location fun url => logs_downloadFile url _

theorem silent_downloadRepoMDPart (urls : List Text) {location : Text} :
    Silent Cache.downloads (downloadRepoMDPart env conf repo urls location) s ↔
      (location ≠ [] → env.access (partPath conf repo location) s ≠ some 2) := by
  simp only [downloadRepoMDPart, silent_ite, silent_throw_bind, silent_get_bind]
  have hmissing (hlocation : location ≠ []) :
      ¬ Silent Cache.downloads
        (downloadFileFromRepo env urls location (partPath conf repo location)) s :=
    not_silent_downloadFileFromRepo urls hlocation (partPath_ne_nil location) s
  cases env.access (partPath conf repo location) s with
  | none => simp
  | some errno =>
      simp only [silent_ite, silent_throw_bind, ne_eq, Option.some.injEq]
      tauto

theorem downloadRepoMDPart_ok {urls : List Text} {location : Text} {t : Cache δ}
    (hsilent : Silent Cache.downloads (downloadRepoMDPart env conf repo urls location) s) :
    (downloadRepoMDPart env conf repo urls location).run s = .ok () t ↔
      location ≠ [] ∧ env.access (partPath conf repo location) s = none ∧ t = s := by
  rw [silent_downloadRepoMDPart] at hsilent
  by_cases hlocation : location = []
  · simp only [downloadRepoMDPart, hlocation, if_true]
    constructor <;> intro h
    · cases h
    · exact absurd rfl h.1
  · simp only [downloadRepoMDPart, hlocation, if_false, run_get_bind]
    have hthere := hsilent hlocation
    cases haccess : env.access (partPath conf repo location) s with
    | none =>
        constructor
        · intro h
          cases h
          exact ⟨hlocation, rfl, rfl⟩
        · rintro ⟨-, -, rfl⟩
          rfl
    | some errno =>
        have herrno : errno ≠ 2 := fun heq => hthere (by rw [haccess, heq])
        simp only [ne_eq, herrno, not_false_eq_true, if_true]
        constructor <;> intro h
        · cases h
        · cases h.2.1

/-- The loop over the parts asks for a part exactly if one is missing when it comes to it. -/
theorem silent_parts (urls : List Text) (parts : List (Part × Text)) :
    Silent Cache.downloads
        (parts.mapM fun part => downloadRepoMDPart env conf repo urls part.2) s ↔
      PartsAtHand env conf repo s parts := by
  induction parts with
  | nil => exact iff_of_true (silent_pure []) trivial
  | cons part parts ih =>
      have hloop : Logs Cache.downloads
          (parts.mapM fun part => downloadRepoMDPart env conf repo urls part.2) :=
        Evolves.mapM (fun part => logs_downloadRepoMDPart urls part.2) parts
      rw [List.mapM_cons, silent_bind (logs_downloadRepoMDPart urls part.2)
        fun _ => hloop.bind fun _ => evolves_pure _]
      simp only [silent_bind hloop fun _ => evolves_pure _, silent_pure, implies_true, and_true]
      constructor
      · rintro ⟨hpart, hrest⟩ hlocation
        refine ⟨(silent_downloadRepoMDPart urls).mp hpart hlocation, fun haccess => ih.mp ?_⟩
        exact hrest () s ((downloadRepoMDPart_ok hpart).mpr ⟨hlocation, haccess, rfl⟩)
      · intro hparts
        have hpart := (silent_downloadRepoMDPart urls).mpr fun hlocation => (hparts hlocation).1
        refine ⟨hpart, fun _ t hrun => ?_⟩
        obtain ⟨hlocation, haccess, rfl⟩ := (downloadRepoMDPart_ok hpart).mp hrun
        exact ih.mpr ((hparts hlocation).2 haccess)

theorem parts_ok {urls : List Text} {parts : List (Part × Text)} {units : List Unit}
    {t : Cache δ} (hparts : PartsAtHand env conf repo s parts)
    (h : (parts.mapM fun part => downloadRepoMDPart env conf repo urls part.2).run s =
      .ok units t) :
    t = s ∧ ∀ part ∈ parts, env.access (partPath conf repo part.2) s = none := by
  induction parts generalizing units with
  | nil =>
      cases h
      exact ⟨rfl, by simp⟩
  | cons part parts ih =>
      have hpart := (silent_downloadRepoMDPart urls).mpr fun hlocation => (hparts hlocation).1
      rw [List.mapM_cons, run_bind_eq_ok] at h
      obtain ⟨_, u, hrun, h⟩ := h
      obtain ⟨hlocation, haccess, rfl⟩ := (downloadRepoMDPart_ok hpart).mp hrun
      obtain ⟨_, v, hloop, hend⟩ := run_bind_eq_ok.mp h
      cases hend
      obtain ⟨hsame, hrest⟩ := ih ((hparts hlocation).2 haccess) hloop
      exact ⟨hsame, List.forall_mem_cons.mpr ⟨haccess, hrest⟩⟩

theorem logs_ensureRepoMDParts (urls : List Text) (parts : List (Part × Text)) :
    Logs Cache.downloads (ensureRepoMDParts env conf repo urls parts) :=
  (Evolves.mapM (fun part => logs_downloadRepoMDPart urls part.2) parts).bind
    fun _ => evolves_pure _

theorem silent_ensureRepoMDParts (urls : List Text) (parts : List (Part × Text)) :
    Silent Cache.downloads (ensureRepoMDParts env conf repo urls parts) s ↔
      PartsAtHand env conf repo s parts := by
  have hloop : Logs Cache.downloads
      (parts.mapM fun part => downloadRepoMDPart env conf repo urls part.2) :=
    Evolves.mapM (fun part => logs_downloadRepoMDPart urls part.2) parts
  rw [ensureRepoMDParts, silent_bind hloop fun _ => evolves_pure _, silent_parts]
  exact and_iff_left fun _ _ _ => silent_pure _

theorem logs_useRepoMD (urls : List Text) :
    Logs Cache.downloads (useRepoMD fmt env conf repo urls) :=
  evolves_get.bind fun _ => (evolves_fromExcept _).bind fun _ =>
    (logs_ensureRepoMDParts urls _).bind fun _ => evolves_pure _

theorem silent_useRepoMD (urls : List Text) :
    Silent Cache.downloads (useRepoMD fmt env conf repo urls) s ↔
      ∀ md, parseRepoMD fmt env conf repo s = .ok md →
        PartsAtHand env conf repo s (wantedParts repo md) := by
  have hrest (md : RepoMD) : Logs Cache.downloads (do
      ensureRepoMDParts env conf repo urls (wantedParts repo md)
      return wantedParts repo md : CacheProc δ (List (Part × Text))) :=
    (logs_ensureRepoMDParts urls _).bind fun _ => evolves_pure _
  rw [useRepoMD, silent_get_bind, silent_bind (evolves_fromExcept _) hrest]
  constructor
  · rintro ⟨_, hnext⟩ md hmd
    have hsilent := hnext md s (run_fromExcept_eq_ok.mpr ⟨hmd, rfl⟩)
    rw [silent_bind (logs_ensureRepoMDParts urls _) fun _ => evolves_pure _] at hsilent
    exact (silent_ensureRepoMDParts urls _).mp hsilent.1
  · intro hparts
    refine ⟨silent_fromExcept _, fun md t hrun => ?_⟩
    obtain ⟨hmd, rfl⟩ := run_fromExcept_eq_ok.mp hrun
    apply ((silent_ensureRepoMDParts urls _).mpr (hparts md hmd)).bind
    exact fun _ _ _ => silent_pure _

theorem useRepoMD_ok {urls : List Text} {parts : List (Part × Text)} {t : Cache δ}
    (hsilent : Silent Cache.downloads (useRepoMD fmt env conf repo urls) s)
    (h : (useRepoMD fmt env conf repo urls).run s = .ok parts t) :
    ∃ md, parseRepoMD fmt env conf repo s = .ok md ∧
      ∀ part ∈ wantedParts repo md, env.access (partPath conf repo part.2) s = none := by
  rw [useRepoMD, run_get_bind, run_bind_eq_ok] at h
  obtain ⟨md, u, hrun, h⟩ := h
  obtain ⟨hmd, rfl⟩ := run_fromExcept_eq_ok.mp hrun
  obtain ⟨_, v, hensure, -⟩ := run_bind_eq_ok.mp h
  obtain ⟨_, w, hloop, -⟩ := run_bind_eq_ok.mp hensure
  exact ⟨md, hmd, (parts_ok ((silent_useRepoMD urls).mp hsilent md hmd) hloop).2⟩

theorem logs_startRepoMD : Logs Cache.downloads (startRepoMD fmt env conf repo) :=
  evolves_startRepoMD (fun _ _ => List.prefix_rfl) (fun url => logs_downloadFile url _)
    fun url => logs_downloadFile url _

theorem silent_startRepoMD :
    Silent Cache.downloads (startRepoMD fmt env conf repo) s ↔
      MetalinkAtHand env conf repo s ∧ ∀ urls, keptUrls fmt env conf repo s = .ok urls →
        MirrorListAtHand env conf repo s := by
  have hrest (urls : List Text) : Logs Cache.downloads
      (getMirrorList fmt env conf repo urls >>= checkNeeds fmt env conf repo) :=
    (logs_getMirrorList urls).bind evolves_checkNeeds
  rw [startRepoMD, silent_bind logs_metalinkStart hrest, silent_metalinkStart]
  apply and_congr_right
  intro hmetalink
  constructor
  · intro hnext urls hurls
    have hsilent := hnext urls s ((metalinkStart_ok hmetalink).mpr ⟨hurls, rfl⟩)
    rw [silent_bind (logs_getMirrorList urls) evolves_checkNeeds, silent_getMirrorList] at hsilent
    exact hsilent.1
  · intro hmirror urls t hrun
    obtain ⟨hurls, rfl⟩ := (metalinkStart_ok hmetalink).mp hrun
    apply ((silent_getMirrorList urls).mpr (hmirror urls hurls)).bind
    intro urls' u _
    apply (silent_fromExcept _).bind
    intro _ v _
    apply silent_get_bind.mpr
    exact (silent_fromExcept _).bind fun _ _ _ => silent_pure _

/-- Without a download the start of `TDNFGetRepoMD` only reads. -/
theorem startRepoMD_ok {urls : List Text} {need : Bool × List ℕ} {t : Cache δ}
    (hsilent : Silent Cache.downloads (startRepoMD fmt env conf repo) s) :
    (startRepoMD fmt env conf repo).run s = .ok (urls, need) t ↔
      t = s ∧ ∃ kept, keptUrls fmt env conf repo s = .ok kept ∧
        listedUrls fmt env conf repo kept s = .ok urls ∧ checkBaseUrls urls = .ok () ∧
          needsRepoMD fmt env conf repo s = .ok need := by
  obtain ⟨hmetalink, hmirror⟩ := silent_startRepoMD.mp hsilent
  constructor
  · intro h
    rw [startRepoMD, run_bind_eq_ok] at h
    obtain ⟨kept, u, hmetalinkRun, hmirrorRest⟩ := h
    obtain ⟨hkept, rfl⟩ := (metalinkStart_ok hmetalink).mp hmetalinkRun
    obtain ⟨listed, u, hmirrorRun, hcheckRest⟩ := run_bind_eq_ok.mp hmirrorRest
    obtain ⟨hlisted, rfl⟩ := (getMirrorList_ok (hmirror kept hkept)).mp hmirrorRun
    obtain ⟨_, u, hcheckRun, hneedRest⟩ := run_bind_eq_ok.mp hcheckRest
    obtain ⟨hcheck, rfl⟩ := run_fromExcept_eq_ok.mp hcheckRun
    rw [run_get_bind] at hneedRest
    obtain ⟨_, u, hneedRun, hend⟩ := run_bind_eq_ok.mp hneedRest
    obtain ⟨hneed, rfl⟩ := run_fromExcept_eq_ok.mp hneedRun
    cases hend
    exact ⟨rfl, kept, hkept, hlisted, hcheck, hneed⟩
  · rintro ⟨rfl, kept, hkept, hlisted, hcheck, hneed⟩
    rw [startRepoMD, run_bind_ok ((metalinkStart_ok hmetalink).mpr ⟨hkept, rfl⟩),
      run_bind_ok ((getMirrorList_ok (hmirror kept hkept)).mpr ⟨hlisted, rfl⟩), checkNeeds,
      run_bind_ok (run_fromExcept_eq_ok.mpr ⟨hcheck, rfl⟩), run_get_bind,
      run_bind_ok (run_fromExcept_eq_ok.mpr ⟨hneed, rfl⟩)]
    rfl

end Stages

/-! ## Runs from the cache only -/

section Runs

theorem getRepoMD_cacheOnly (h : conf.nCacheOnly = true) :
    getRepoMD fmt env conf repo = startRepoMD fmt env conf repo >>= fun start =>
      useRepoMD fmt env conf repo start.1 := by
  simp [getRepoMD, h]

theorem silent_getRepoMD (h : conf.nCacheOnly = true) :
    Silent Cache.downloads (getRepoMD fmt env conf repo) s ↔ Offline fmt env conf repo s := by
  rw [getRepoMD_cacheOnly h, silent_bind logs_startRepoMD fun start => logs_useRepoMD start.1]
  constructor
  · rintro ⟨hstart, hnext⟩
    obtain ⟨hmetalink, hmirror⟩ := silent_startRepoMD.mp hstart
    refine ⟨hmetalink, fun kept hkept => ⟨hmirror kept hkept, ?_⟩⟩
    intro urls hlisted hcheck need hneed
    have hrun := (startRepoMD_ok hstart).mpr ⟨rfl, kept, hkept, hlisted, hcheck, hneed⟩
    exact (silent_useRepoMD urls).mp (hnext (urls, need) s hrun)
  · rintro ⟨hmetalink, hnext⟩
    have hstart : Silent Cache.downloads (startRepoMD fmt env conf repo) s :=
      silent_startRepoMD.mpr ⟨hmetalink, fun kept hkept => (hnext kept hkept).1⟩
    refine ⟨hstart, ?_⟩
    rintro ⟨urls, need⟩ t hrun
    obtain ⟨rfl, kept, hkept, hlisted, hcheck, hneed⟩ := (startRepoMD_ok hstart).mp hrun
    exact (silent_useRepoMD urls).mpr ((hnext kept hkept).2 urls hlisted hcheck need hneed)

/-- What `TDNFInitRepo` finds when it asks for the metadata. -/
def prepared (env : Env δ κ) (conf : RefreshConf) (repo : Repo) (s : Cache δ) : Cache δ :=
  finalState ((makeDirs env (joinedDataDir conf repo)).run s)

/-- All metadata of a repository lies in the cache. -/
structure DataPresent (fmt : Formats δ κ) (env : Env δ κ) (conf : RefreshConf) (repo : Repo)
    (s : Cache δ) : Prop where
  metalink : repo.pszId ∈ conf.metalinkRepos → env.access (metalinkFile conf repo) s = none
  mirrorList : repo.pszMirrorList ≠ none → env.access (mirrorFile conf repo) s = none
  repoMD : ∃ data, readFile fmt env (repoMDFile conf repo) s = .ok data
  parts : ∀ md, parseRepoMD fmt env conf repo s = .ok md →
    ∀ part ∈ wantedParts repo md, env.access (partPath conf repo part.2) s = none

/-- What a refresh with `nCacheOnly` promises. -/
structure OperatesFromCache (fmt : Formats δ κ) (env : Env δ κ) (conf : RefreshConf)
    (repos : List Repo) (s : Cache δ) : Prop where
  offline : (finalState ((refresh fmt env conf repos).run s)).downloads = s.downloads
  missing : ∀ before repo after, refreshed env repos = before ++ repo :: after →
    ∀ loaded t, (before.mapM (refreshRepo fmt env conf true)).run s = .ok loaded t →
      repo.nHasMetaData = true → ¬ DataPresent fmt env conf repo (prepared env conf repo t) →
        ∃ e u, (initRepo fmt env conf repo).run t = .error e u

theorem attempt_makeDirs (env : Env δ κ) (conf : RefreshConf) (repo : Repo) (s : Cache δ) :
    ∃ result, (attempt (makeDirs env (joinedDataDir conf repo))).run s =
      .ok result (prepared env conf repo s) := by
  simp only [attempt, prepared, EStateM.run]
  cases makeDirs env (joinedDataDir conf repo) s with
  | ok a t => exact ⟨.ok a, rfl⟩
  | error e t => exact ⟨.error e, rfl⟩

theorem logs_getRepoMD (h : conf.nCacheOnly = true) :
    Logs Cache.downloads (getRepoMD fmt env conf repo) := by
  rw [getRepoMD_cacheOnly h]
  exact logs_startRepoMD.bind fun start => logs_useRepoMD start.1

theorem logs_loadRepo (parts : List (Part × Text)) :
    Logs Cache.downloads (loadRepo fmt env conf repo parts) :=
  logs_of_silent (silent_loadRepo parts)

/-- `TDNFInitRepo` for a repository with metadata, without what it does on an error -/
abbrev initMetadata (fmt : Formats δ κ) (env : Env δ κ) (conf : RefreshConf) (repo : Repo) :
    CacheProc δ κ := do
  let _ ← attempt (makeDirs env (joinedDataDir conf repo))
  loadRepo fmt env conf repo (← getRepoMD fmt env conf repo)

theorem logs_initMetadata (h : conf.nCacheOnly = true) :
    Logs Cache.downloads (initMetadata fmt env conf repo) :=
  (logs_of_silent fun s => silent_attempt.mpr (silent_makeDirs _ s)).bind fun _ =>
    (logs_getRepoMD h).bind logs_loadRepo

theorem silent_initMetadata (h : conf.nCacheOnly = true) :
    Silent Cache.downloads (initMetadata fmt env conf repo) s ↔
      Offline fmt env conf repo (prepared env conf repo s) := by
  have hload (u : Cache δ) : Silent Cache.downloads
      (getRepoMD fmt env conf repo >>= loadRepo fmt env conf repo) u ↔
        Offline fmt env conf repo u := by
    rw [silent_bind (logs_getRepoMD h) logs_loadRepo, silent_getRepoMD h]
    exact and_iff_left fun parts t _ => silent_loadRepo parts t
  obtain ⟨result, hrun⟩ := attempt_makeDirs env conf repo s
  rw [silent_bind (logs_of_silent fun s => silent_attempt.mpr (silent_makeDirs _ s))
    fun _ => (logs_getRepoMD h).bind logs_loadRepo]
  constructor
  · rintro ⟨_, hnext⟩
    exact (hload _).mp (hnext result _ hrun)
  · intro hoffline
    refine ⟨silent_attempt.mpr (silent_makeDirs _ s), fun _ t hrun' => ?_⟩
    cases hrun.symm.trans hrun'
    exact (hload _).mpr hoffline

theorem silent_initRepo (h : conf.nCacheOnly = true) :
    Silent Cache.downloads (initRepo fmt env conf repo) s ↔
      (repo.nHasMetaData = true → Offline fmt env conf repo (prepared env conf repo s)) := by
  have hid (t : Cache δ) : (id t).downloads = t.downloads := rfl
  rw [initRepo, silent_finishing hid removeOld_downloads, silent_ite, silent_initMetadata h]
  exact and_iff_left fun _ => silent_fromExcept _

theorem logs_initRepo (h : conf.nCacheOnly = true) :
    Logs Cache.downloads (initRepo fmt env conf repo) :=
  Evolves.finishing (fun s => refl_of (Added Cache.downloads) s)
    (fun s => by rw [Added, removeOld_downloads])
    ((logs_initMetadata h).ite _ (evolves_fromExcept _))

theorem readFile_of_parse {md : RepoMD} (h : parseRepoMD fmt env conf repo s = .ok md) :
    ∃ data, readFile fmt env (repoMDFile conf repo) s = .ok data := by
  simp only [parseRepoMD] at h
  cases hread : readFile fmt env (repoMDFile conf repo) s with
  | ok data => exact ⟨data, rfl⟩
  | error errno =>
      simp only [hread] at h
      split at h <;> cases h

theorem mirror_present (hlist : repo.pszMirrorList ≠ none)
    (h : MirrorListAtHand env conf repo s) {urls urls' : List Text}
    (hlisted : listedUrls fmt env conf repo urls s = .ok urls') :
    env.access (mirrorFile conf repo) s = none := by
  have hneeds := h hlist
  obtain ⟨url, hurl⟩ := Option.ne_none_iff_exists'.mp hlist
  simp only [listedUrls, hurl] at hlisted
  obtain ⟨needed, hneeded, -⟩ := exists_of_bind_ok hlisted
  cases haccess : env.access (mirrorFile conf repo) s with
  | none => rfl
  | some errno =>
      simp only [needsMirrorList, haccess] at hneeds hneeded
      split at hneeded
      · rename_i herrno
        exact absurd (if_pos herrno) hneeds
      · cases hneeded

/-- What is loaded without a download lay in the cache. -/
theorem dataPresent_of_ok (h : conf.nCacheOnly = true) (hmetadata : repo.nHasMetaData = true)
    (hoffline : Offline fmt env conf repo (prepared env conf repo s)) {content : κ}
    {t : Cache δ} (hrun : (initRepo fmt env conf repo).run s = .ok content t) :
    DataPresent fmt env conf repo (prepared env conf repo s) := by
  rw [initRepo, run_finishing_eq_ok] at hrun
  obtain ⟨u, hrun, -⟩ := hrun
  rw [if_pos hmetadata, run_bind_eq_ok] at hrun
  obtain ⟨_, v, hdirs, hrest⟩ := hrun
  obtain ⟨result, hdirs'⟩ := attempt_makeDirs env conf repo s
  cases hdirs'.symm.trans hdirs
  obtain ⟨parts, w, hget, -⟩ := run_bind_eq_ok.mp hrest
  have hsilent := (silent_getRepoMD h).mpr hoffline
  rw [getRepoMD_cacheOnly h] at hget hsilent
  rw [silent_bind logs_startRepoMD fun start => logs_useRepoMD start.1] at hsilent
  obtain ⟨⟨urls, need⟩, x, hstart, huse⟩ := run_bind_eq_ok.mp hget
  have husesilent := hsilent.2 _ _ hstart
  obtain ⟨rfl, kept, hkept, hlisted, -⟩ := (startRepoMD_ok hsilent.1).mp hstart
  obtain ⟨md, hmd, hparts⟩ := useRepoMD_ok husesilent huse
  constructor
  · intro hmember
    simp only [keptUrls, hmember, if_true] at hkept
    split at hkept
    · cases hkept
    · split at hkept
      · cases hkept
      · rename_i hneeds
        simp only [needsMetalink, Bool.not_eq_true, Bool.or_eq_false_iff,
          Option.isSome_eq_false_iff, Option.isNone_iff_eq_none] at hneeds
        exact hneeds.2
  · intro hlist
    exact mirror_present hlist (hoffline.2 kept hkept).1 hlisted
  · exact readFile_of_parse hmd
  · intro md' hmd'
    cases hmd.symm.trans hmd'
    exact hparts

theorem refreshRepo_cacheOnly (h : conf.nCacheOnly = true) :
    refreshRepo fmt env conf true repo =
      attempt (initRepo fmt env conf repo) >>= skipUnavailable repo := by
  simp only [refreshRepo, expireMetadata, h, Bool.not_true, Bool.and_false, Bool.false_eq_true,
    if_false, pure_bind, if_true]

theorem silent_skipUnavailable (result : Except TdnfError κ) (s : Cache δ) :
    Silent Cache.downloads (skipUnavailable repo result) s := by
  cases result with
  | ok content => exact silent_pure _
  | error e =>
      rw [skipUnavailable, silent_ite]
      exact ⟨fun _ => silent_pure _, fun _ => silent_throw e⟩

theorem silent_refreshRepo (h : conf.nCacheOnly = true) :
    Silent Cache.downloads (refreshRepo fmt env conf true repo) s ↔
      (repo.nHasMetaData = true → Offline fmt env conf repo (prepared env conf repo s)) := by
  rw [refreshRepo_cacheOnly h, silent_bind (logs_initRepo h).attempt
    fun result => logs_of_silent (silent_skipUnavailable result), silent_attempt, silent_initRepo h]
  exact and_iff_left fun result t _ => silent_skipUnavailable result t

theorem logs_refreshRepo (h : conf.nCacheOnly = true) (repo : Repo) :
    Logs Cache.downloads (refreshRepo fmt env conf true repo) := by
  rw [refreshRepo_cacheOnly h]
  exact (logs_initRepo h).attempt.bind fun result => logs_of_silent (silent_skipUnavailable result)

theorem refresh_eq (repos : List Repo) :
    refresh fmt env conf repos = (refreshed env repos).mapM (refreshRepo fmt env conf true) := by
  simp only [refresh, refreshSack]
  split
  · rename_i hrefresh
    rw [← hrefresh]
  · rfl

/-- A refresh with `nCacheOnly` operates from the cache exactly if nothing that it comes to would
have to be downloaded: no metalink file, no mirror list and no part of the metadata. -/
theorem refresh_cacheOnly_iff (fmt : Formats δ κ) (env : Env δ κ) (conf : RefreshConf)
    (repos : List Repo) (s : Cache δ) (hcache : conf.nCacheOnly = true) :
    OperatesFromCache fmt env conf repos s ↔
      ∀ before repo after, refreshed env repos = before ++ repo :: after →
        ∀ loaded t, (before.mapM (refreshRepo fmt env conf true)).run s = .ok loaded t →
          repo.nHasMetaData = true → Offline fmt env conf repo (prepared env conf repo t) := by
  constructor
  · intro hpromise before repo after heq loaded t hrun
    have hsilent : Silent Cache.downloads (refresh fmt env conf repos) s := hpromise.offline
    rw [refresh_eq, silent_mapM (logs_refreshRepo hcache)] at hsilent
    exact (silent_refreshRepo hcache).mp (hsilent before repo after heq loaded t hrun)
  · intro hoffline
    have hsilent : Silent Cache.downloads (refresh fmt env conf repos) s := by
      rw [refresh_eq, silent_mapM (logs_refreshRepo hcache)]
      intro before repo after heq loaded t hrun
      exact (silent_refreshRepo hcache).mpr (hoffline before repo after heq loaded t hrun)
    refine ⟨hsilent, ?_⟩
    intro before repo after heq loaded t hrun hmetadata hmissing
    cases hinit : (initRepo fmt env conf repo).run t with
    | error e u => exact ⟨e, u, rfl⟩
    | ok content u =>
        have hready := hoffline before repo after heq loaded t hrun hmetadata
        exact absurd (dataPresent_of_ok hcache hmetadata hready hinit) hmissing

/-- `repomd.xml` and the primary part lie in the cache, the file lists do not. -/
def partlyCached : Cache (List ℕ) where
  files l :=
    if l = locOf "/c/r/repodata/repomd.xml".toList then .file [1] 0
    else if l = locOf "/c/r/repodata/primary.xml".toList then .file [2] 0
    else .absent
  downloads := []
  made := []

/-- In cache only mode the file lists are downloaded where they are missing. -/
theorem part_downloaded : ¬ OperatesFromCache plainFormats (plainEnv fun _ => .saved [3] none)
    (plainConf true) [plainRepo] partlyCached := by
  intro h
  have hdownloads := h.offline
  revert hdownloads
  decide +kernel
/-- Where nothing is cached there is nothing to come to. -/
theorem nothing_downloaded : OperatesFromCache plainFormats (plainEnv fun _ => .saved [3] none)
    (plainConf true) [plainRepo] emptyCache := by
  rw [refresh_cacheOnly_iff _ _ _ _ _ rfl]
  intro before repo after heq loaded t hrun _
  have hlist : refreshed (plainEnv fun _ => .saved [3] none) [plainRepo] = [plainRepo] := by decide
  obtain ⟨rfl, rfl, -⟩ : before = [] ∧ repo = plainRepo ∧ after = [] := by
    rw [hlist] at heq
    simpa using List.append_eq_singleton_iff.mp heq.symm
  cases hrun
  have hparse : parseRepoMD plainFormats (plainEnv fun _ => .saved [3] none) (plainConf true)
      plainRepo (prepared (plainEnv fun _ => .saved [3] none) (plainConf true) plainRepo emptyCache)
        = .error .cacheDisabled := by decide +kernel
  refine ⟨fun _ hmember => absurd hmember (by simp [plainConf]), fun _ _ => ⟨?_, ?_⟩⟩
  · exact fun hlist => absurd rfl hlist
  · intro _ _ _ _ _ md hmd
    cases hparse.symm.trans hmd

end Runs

end Tdnf.Client.RepoCache
