import Tdnf.Client.RepoCache
import Tdnf.Library.Evolution

/-!
# What the steps of a refresh do to a cache directory

Along which relation a step evolves follows from the single changes it makes: a
directory made, a place emptied, a file downloaded or written.
-/

namespace Tdnf.Client.RepoCache

open Procedure PathText FileStore Common Evolution

variable {δ κ : Type} {fmt : Formats δ κ} {env : Env δ κ} {conf : RefreshConf} {repo : Repo}
  {R : Cache δ → Cache δ → Prop} [Std.Refl R] [IsTrans (Cache δ) R]

section System

omit [IsTrans (Cache δ) R] in
theorem evolves_bailSys (errno : Option ℕ) : Evolves R (bailSys errno : CacheProc δ Unit) := by
  cases errno with
  | none => exact evolves_pure ()
  | some errno => exact evolves_throw _

section Directories

variable (hmkdir : ∀ (s : Cache δ) l, R s { s with files := s.files.mkdir l env.now })

include hmkdir

theorem evolves_makeDir (p : Text) : Evolves R (makeDir env p) := by
  refine Evolves.ite _ (evolves_throw _) ?_
  refine Evolves.bind evolves_get fun s => ?_
  cases env.mkdir p s with
  | none => exact evolves_modify fun s => hmkdir s (locOf p)
  | some errno => exact Evolves.ite _ (evolves_throw _) (evolves_pure ())

theorem evolves_makeDirs (p : Text) : Evolves R (makeDirs env p) := by
  have hloop (path : Text) : Evolves R ((dirPrefixes [] path).forM (makeDir env)) :=
    Evolves.forM (evolves_makeDir hmkdir) _
  refine Evolves.ite _ (evolves_throw _) ?_
  refine Evolves.bind evolves_get fun s => ?_
  cases env.access p s with
  | none => exact (evolves_throw _).bind fun _ => hloop _
  | some errno => exact Evolves.ite _ (evolves_throw _) (hloop _)

theorem evolves_ensureDir (p : Text) : Evolves R (ensureDir env p) := by
  apply (evolves_makeDirs hmkdir p).attempt.bind
  intro result
  cases result with
  | ok a => exact evolves_pure ()
  | error e => exact Evolves.ite _ (evolves_throw e) (evolves_pure ())

end Directories

theorem evolves_removeDir (dir : Text) (hclear : ∀ s, R s (cleared env dir s)) :
    Evolves R (removeDir env dir) := by
  apply Evolves.bind evolves_get
  intro s
  apply (evolves_modify hclear).bind
  exact fun _ => Evolves.ite _ (evolves_bailSys _) (evolves_pure ())

theorem evolves_touchFile (p : Text)
    (hput : ∀ s : Cache δ,
      R s { s with files := s.files.put (locOf p) (.file fmt.noData env.now) }) :
    Evolves R (touchFile fmt env p) := by
  apply Evolves.bind evolves_get
  intro s
  exact (evolves_bailSys _).bind fun _ => evolves_modify hput

section Downloads

variable {file : Text} (hfile : ∀ url, Evolves R (downloadFile env url file))

include hfile

theorem evolves_tryBaseUrls (location : Text) (urls : List Text) :
    Evolves R (tryBaseUrls env location file urls) := by
  induction urls with
  | nil => exact evolves_pure ()
  | cons url urls ih =>
      cases urls with
      | nil => exact hfile _
      | cons url' urls => exact (hfile _).orElse ih

theorem evolves_downloadFileFromRepo (urls : List Text) (location : Text) :
    Evolves R (downloadFileFromRepo env urls location file) := by
  have hrest : Evolves R (if urls = [] then downloadFile env location file
      else tryBaseUrls env location file urls) :=
    (hfile location).ite _ (evolves_tryBaseUrls hfile location urls)
  exact Evolves.ite _ (evolves_throw _) hrest

end Downloads

end System

section Metadata

variable (hmkdir : ∀ (s : Cache δ) l, R s { s with files := s.files.mkdir l env.now })

include hmkdir

theorem evolves_metalinkStart
    (hfile : ∀ url, Evolves R (downloadFile env url (metalinkFile conf repo))) :
    Evolves R (metalinkStart fmt env conf repo) := by
  have hurls : Evolves R (do
      fromExcept (metalinkBaseUrls fmt env conf repo (← get)) : CacheProc δ (List Text)) :=
    Evolves.bind evolves_get fun s => evolves_fromExcept _
  have hlisted : Evolves R (do
      if needsMetalink env conf repo (← get) then
        ensureDir env (joinedDataDir conf repo)
        downloadFile env (repo.pszMetaLink.getD []) (metalinkFile conf repo)
      fromExcept (metalinkBaseUrls fmt env conf repo (← get)) : CacheProc δ (List Text)) := by
    refine Evolves.bind evolves_get fun s => ?_
    apply Evolves.ite
    · apply (evolves_ensureDir hmkdir _).bind
      exact fun _ => (hfile _).bind fun _ => hurls
    · exact hurls
  apply Evolves.ite
  · exact evolves_throw _
  · exact hlisted.ite _ (evolves_pure _)

omit hmkdir in
theorem evolves_getMirrorList (urls : List Text)
    (hfile : ∀ url, Evolves R (downloadFile env url (mirrorFile conf repo))) :
    Evolves R (getMirrorList fmt env conf repo urls) := by
  have hurls : Evolves R (do
      fromExcept (mirrorBaseUrls fmt env conf repo (← get)) : CacheProc δ (List Text)) :=
    Evolves.bind evolves_get fun s => evolves_fromExcept _
  simp only [getMirrorList]
  cases repo.pszMirrorList with
  | none => exact evolves_pure urls
  | some url =>
      refine Evolves.bind evolves_get fun s => ?_
      apply (evolves_fromExcept _).bind
      intro needed
      apply Evolves.ite
      · exact (hfile url).bind fun _ => hurls
      · exact hurls

omit hmkdir in
/-- What is asked of the base URLs that the mirror list leaves. -/
theorem evolves_checkNeeds (urls : List Text) : Evolves R (checkNeeds fmt env conf repo urls) :=
  (evolves_fromExcept _).bind fun _ => Evolves.bind evolves_get fun _ =>
    (evolves_fromExcept _).bind fun _ => evolves_pure _

theorem evolves_startRepoMD
    (hmetalink : ∀ url, Evolves R (downloadFile env url (metalinkFile conf repo)))
    (hmirror : ∀ url, Evolves R (downloadFile env url (mirrorFile conf repo))) :
    Evolves R (startRepoMD fmt env conf repo) :=
  (evolves_metalinkStart hmkdir hmetalink).bind fun urls =>
    (evolves_getMirrorList urls hmirror).bind evolves_checkNeeds

omit hmkdir in
theorem evolves_downloadRepoMDPart (urls : List Text) (location : Text)
    (hfile : ∀ url, Evolves R (downloadFile env url (partPath conf repo location))) :
    Evolves R (downloadRepoMDPart env conf repo urls location) := by
  refine Evolves.ite _ (evolves_throw _) ?_
  refine Evolves.bind evolves_get fun s => ?_
  cases env.access (partPath conf repo location) s with
  | none => exact evolves_pure ()
  | some errno =>
      apply Evolves.ite
      · exact evolves_throw _
      · exact evolves_downloadFileFromRepo hfile urls location

end Metadata

theorem evolves_expireMetadata (hclear : ∀ dir s, R s (cleared env dir s)) :
    Evolves R (expireMetadata env conf repo) := by
  have hremove : Evolves R (do
      if ← fromExcept (shouldSyncMetadata env conf repo (← get)) then
        removeDir env (repoDataDir conf repo)
        removeDir env (solvCacheDir conf repo) : CacheProc δ Unit) := by
    refine Evolves.bind evolves_get fun s => ?_
    apply (evolves_fromExcept _).bind
    intro expired
    apply Evolves.ite
    · apply (evolves_removeDir _ (hclear _)).bind
      exact fun _ => evolves_removeDir _ (hclear _)
    · exact evolves_pure ()
  exact hremove.ite _ (evolves_pure ())

end Tdnf.Client.RepoCache
