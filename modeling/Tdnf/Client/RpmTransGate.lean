import Tdnf.Client.RpmTrans

/-!
# What a transaction runs

Every package that becomes part of a transaction has passed its checks, and the
elements that rpm runs are those of the solved packages. A package of a repository
without signature checks takes the verification off the packages after it and off
the whole run.
-/

namespace Tdnf.Client.RpmTrans

open PathText Common Procedure Trace FileTree

/-! ## What is promised -/

section Promise

variable (host : Host) (args : CmdArgs) (conf : Conf) (repos : List RepoEntry) (fuel : ℕ)

/-- The signatures of the packages of a repository are checked. -/
def Checked (pRepo : RepoEntry) : Prop :=
  args.nNoGPGCheck = false ∧ pRepo.repo.nGPGCheck = true

instance (pRepo : RepoEntry) : Decidable (Checked args pRepo) := instDecidableAnd

/-- What rpm verifies once packages have been added. -/
def verifiedAfter (v : Verification) (before : List Accepted) : Verification :=
  if ∀ a ∈ before, Checked args a.pRepo then v else .off

/-- Where the file of a package comes from. -/
inductive Origin (pInfo : PkgInfo) (pRepo : RepoEntry) : Text → Prop
  | given : pInfo.pszLocation.head? = some '/' → Origin pInfo pRepo pInfo.pszLocation
  | inPlace {url : Text} : url ∈ pRepo.repo.ppszBaseUrls.getD [] →
      startsWithCase url "file://".toList = true →
      Origin pInfo pRepo (joinPath [url.drop 7, pInfo.pszLocation])
  /-- below the directory for the packages of the repository -/
  | cached {fs : Tree} {dir filePath : Text} :
      normalizePath fs (joinPath [conf.pszCacheDir, pRepo.repo.pszId, "rpms".toList]) = .ok dir →
      dir <+: filePath → Origin pInfo pRepo filePath
  | downloaded {directory path : Text} : args.nDownloadOnly = true →
      args.pszDownloadDir = some directory → remotePath pInfo.pszLocation = .ok path →
      Origin pInfo pRepo (joinPath [directory, basename path])

/-- What was found of a package before it was added. -/
structure Passed (a : Accepted) : Prop where
  repo : findRepoById repos a.pInfo.pszRepoName = .ok a.pRepo
  origin : Origin args conf a.pInfo a.pRepo a.filePath
  there : ∃ node, a.seen.disk.fs.access a.filePath = .ok node
  digest : ∀ t d, a.pInfo.checksum = some ⟨t, d⟩ →
    host.getDigestForFile a.filePath a.seen t = .ok d
  size : getFileSize a.seen.disk.fs a.filePath host.unset =
    (none, a.pInfo.dwDownloadSizeBytes.toInt)
  signed : gpgSigCheck args.toGpgArgs a.pRepo.repo = true →
    Verified a.pRepo.repo a.filePath a.trace
  keys : Licensed (Answered args.toGpgArgs a.pRepo.repo) a.trace

/-- The packages of a list that were added: all of them, unless adding the next one ended with
ERROR_TDNF_NO_DATA, which counts as the end of the list. -/
structure Taken (nInstallFlag : InstallFlag) (pInfos : List PkgInfo) (as : List Accepted) :
    Prop where
  kinds : ∀ a ∈ as, a.element = none ∨ a.element = some (nInstallFlag.element a.filePath)
  infos : as.map Accepted.pInfo = pInfos ∨ ∃ pInfo rest s t,
    pInfos = as.map Accepted.pInfo ++ pInfo :: rest ∧
      (transAddPkg host args conf repos fuel nInstallFlag pInfo).run s = .error (.code .noData) t

/-- The elements that erase packages: all that the rpm database has under their labels. -/
def erasures (pInfos : List PkgInfo) : List Element :=
  pInfos.flatMap fun pInfo =>
    ((host.labelOffsets (fullName pInfo)).filter fun nOffset => nOffset ≠ 0).map .erase

/-- The elements of a transaction set are those of the solved packages. -/
structure Contents (info : SolvedPkgInfo) (accepted : List Accepted) (elements : List Element)
    (installs reinstalls upgrades downgrades : List Accepted) : Prop where
  installed : Taken host args conf repos fuel .install info.pPkgsToInstall installs
  reinstalled : Taken host args conf repos fuel .reinstall info.pPkgsToReinstall reinstalls
  upgraded : Taken host args conf repos fuel .upgrade info.pPkgsToUpgrade upgrades
  downgraded : Taken host args conf repos fuel .install info.pPkgsToDowngrade downgrades
  accepted : accepted = installs ++ reinstalls ++ upgrades ++ downgrades
  elements : elements = installs.filterMap Accepted.element ++
    reinstalls.filterMap Accepted.element ++ upgrades.filterMap Accepted.element ++
    erasures host info.pPkgsToRemove ++ erasures host info.pPkgsObsoleted ++
    downgrades.filterMap Accepted.element ++
    if info.pPkgsToDowngrade ≠ [] then erasures host info.pPkgsRemovedByDowngrade else []

/-- What rpm has been asked before a call, each time with success. -/
def Follows (info : SolvedPkgInfo) (v : Verification) (elements : List Element)
    (before : List RpmCall) : RpmCall → Prop
  | .order _ => before = []
  | .check _ _ => before = [.order 0]
  | .run flags verify elements' _ => verify = v ∧ elements' = elements ∧
      (flags = testFlags info ∧ before = [.order 0, .check 0 0] ∨
        flags = transFlags args info ∧ args.nTestOnly = false ∧
          before = [.order 0, .check 0 0, .run (testFlags info) v elements 0])

/-- The files in the cache directory, the last one first. -/
def cachedOf (accepted : List Accepted) : List Text :=
  ((accepted.map Accepted.filePath).filter fun filePath => conf.pszCacheDir <+: filePath).reverse

end Promise

/-! ## The steps for one package -/

/-- A state with another disk. -/
def TransState.withDisk (s : TransState) (disk : Disk) : TransState :=
  { s with now := { s.now with disk := disk } }

/-- A state with further elements. -/
def TransState.withElements (s : TransState) (elements : List Element) : TransState :=
  { s with now := { s.now with elements := s.now.elements ++ elements } }

/-- The books of a transaction and what rpm verifies are the same. -/
structure Keeps (s t : TransState) : Prop where
  accepted : t.accepted = s.accepted
  cachedRpms : t.cachedRpms = s.cachedRpms
  calls : t.calls = s.calls
  verify : t.now.verify = s.now.verify
  elements : t.now.elements = s.now.elements

/-- The books are the same; if the step seems to have found no data, so is the rest. -/
structure Halts (s : TransState) (stop : TransStop) (t : TransState) : Prop where
  accepted : t.accepted = s.accepted
  cachedRpms : t.cachedRpms = s.cachedRpms
  calls : t.calls = s.calls
  noData : stop = .code .noData → Keeps s t

theorem Keeps.halts {s t : TransState} (h : Keeps s t) (stop : TransStop) : Halts s stop t :=
  ⟨h.accepted, h.cachedRpms, h.calls, fun _ => h⟩

theorem Keeps.trans {s t u : TransState} (h : Keeps s t) (h' : Keeps t u) : Keeps s u where
  accepted := h'.accepted.trans h.accepted
  cachedRpms := h'.cachedRpms.trans h.cachedRpms
  calls := h'.calls.trans h.calls
  verify := h'.verify.trans h.verify
  elements := h'.elements.trans h.elements

section Steps

variable {host : Host} {args : CmdArgs} {conf : Conf} {repos : List RepoEntry} {fuel : ℕ}
  {pInfo : PkgInfo} {pRepo : RepoEntry} {filePath : Text} {s t : TransState} {α : Type}

theorem keeps_withDisk (s : TransState) (disk : Disk) : Keeps s (s.withDisk disk) :=
  ⟨rfl, rfl, rfl, rfl, rfl⟩

theorem wp_onDisk {x : Call α} {Q : α → TransState → Prop} {E : TransStop → TransState → Prop} :
    wp (onDisk x) Q E s ↔ wp x (fun a disk => Q a (s.withDisk disk))
      (fun e disk => E (.code e) (s.withDisk disk)) s.now.disk := by
  rw [onDisk, wp_mapFault, wp_within]
  rfl

theorem wp_bail {x : Except TdnfError α} {Q : α → TransState → Prop}
    {E : TransStop → TransState → Prop} (hQ : ∀ a, x = .ok a → Q a s)
    (hE : ∀ e, x = .error e → E (.code e) s) : wp (bail x) Q E s := by
  cases x with
  | ok a => exact hQ a rfl
  | error e => exact hE e rfl

/-- A package is put below its directory. -/
theorem wp_downloadPackageToTree {data : RepoData} {net : ℕ → Transfer} {nSize : ℤ}
    {location pkgName dir : Text} {disk : Disk} :
    wp (downloadPackageToTree data net nSize location pkgName dir)
      (fun path _ => dir <+: path) (fun _ _ => True) disk := by
  rw [downloadPackageToTree, wp_ite]
  refine ⟨fun _ => trivial, fun _ => ?_⟩
  rw [wp_bind, wp_fromExcept]
  refine ⟨fun path _ => ?_, fun _ _ => trivial⟩
  rw [wp_bind, wp_get, wp_bind, wp_fromExcept]
  refine ⟨fun normalPath _ => ?_, fun _ _ => trivial⟩
  rw [wp_ite]
  refine ⟨fun _ => trivial, fun hprefix => ?_⟩
  rw [wp_bind]
  apply wp_mono (wp_true _ _)
  · intro _ u _
    rw [wp_bind]
    apply wp_mono (wp_true _ _)
    · exact fun _ _ _ => not_not.mp hprefix
    · exact fun _ _ _ => trivial
  · exact fun _ _ _ => trivial

theorem wp_downloadPackageToCache {data : RepoData} {net : ℕ → Transfer}
    {location pkgName : Text} {disk : Disk} :
    wp (downloadPackageToCache host conf net location pkgName data)
      (fun path _ => ∃ fs dir, normalizePath fs
        (joinPath [conf.pszCacheDir, data.pszId, "rpms".toList]) = .ok dir ∧ dir <+: path)
      (fun _ _ => True) disk := by
  rw [downloadPackageToCache, wp_ite]
  refine ⟨fun _ => trivial, fun _ => ?_⟩
  rw [wp_bind, wp_get, wp_bind, wp_fromExcept]
  refine ⟨fun dir hdir => ?_, fun _ _ => trivial⟩
  exact wp_mono wp_downloadPackageToTree (fun path _ hpath => ⟨_, dir, hdir, hpath⟩)
    fun _ _ _ => trivial

theorem wp_downloadPackageToDirectory {data : RepoData} {net : ℕ → Transfer}
    {location pkgName directory : Text} {disk : Disk} :
    wp (downloadPackageToDirectory host net location pkgName directory data)
      (fun filePath _ => ∃ path, remotePath location = .ok path ∧
        filePath = joinPath [directory, basename path])
      (fun _ _ => True) disk := by
  rw [downloadPackageToDirectory, wp_ite]
  refine ⟨fun _ => trivial, fun _ => ?_⟩
  rw [wp_bind, wp_fromExcept]
  refine ⟨fun path hpath => ?_, fun _ _ => trivial⟩
  rw [wp_bind]
  exact wp_mono (wp_true _ _) (fun _ _ _ => ⟨path, hpath, rfl⟩) fun _ _ _ => trivial

/-- A file in place is that of a base URL. -/
theorem inPlace_some {fs : Tree} {location : Text} {urls : List Text}
    (h : inPlace fs location urls = some filePath) : ∃ url ∈ urls,
      startsWithCase url "file://".toList = true ∧ filePath = joinPath [url.drop 7, location] := by
  induction urls with
  | nil => cases h
  | cons url urls ih =>
      have hrest (h : inPlace fs location urls = some filePath) : ∃ url' ∈ url :: urls,
          startsWithCase url' "file://".toList = true ∧
            filePath = joinPath [url'.drop 7, location] := by
        obtain ⟨url', hmem, hfound⟩ := ih h
        exact ⟨url', List.mem_cons_of_mem _ hmem, hfound⟩
      rw [inPlace] at h
      by_cases hfile : startsWithCase url "file://".toList = true
      · rw [if_pos hfile] at h
        cases haccess : fs.access (joinPath [url.drop 7, location]) with
        | ok node =>
            rw [haccess] at h
            exact ⟨url, List.mem_cons_self, hfile, (Option.some.inj h).symm⟩
        | error e =>
            rw [haccess] at h
            exact hrest h
      · rw [if_neg hfile] at h
        exact hrest h

theorem wp_packageFile : wp (packageFile host args conf pInfo pRepo)
    (fun filePath t => Origin args conf pInfo pRepo filePath ∧ Keeps s t)
    (fun _ t => Keeps s t) s := by
  have hsame : Keeps s s := keeps_withDisk s s.now.disk
  rw [packageFile, wp_ite]
  refine ⟨fun hgiven => ⟨.given hgiven, hsame⟩, fun _ => ?_⟩
  rw [wp_bind, wp_get]
  dsimp only
  cases hdir : if args.nDownloadOnly = true then args.pszDownloadDir else none with
  | some directory =>
      rw [Option.ite_none_right_eq_some] at hdir
      rw [wp_onDisk]
      apply wp_mono wp_downloadPackageToDirectory
      · rintro filePath disk ⟨path, hpath, rfl⟩
        exact ⟨.downloaded hdir.1 hdir.2 hpath, keeps_withDisk s disk⟩
      · exact fun _ disk _ => keeps_withDisk s disk
  | none =>
      cases hurls : pRepo.repo.ppszBaseUrls with
      | none => exact hsame
      | some urls =>
          dsimp only
          cases hplace : inPlace s.now.disk.fs pInfo.pszLocation urls with
          | some filePath =>
              obtain ⟨url, hmem, hfile, rfl⟩ := inPlace_some hplace
              exact ⟨.inPlace (by simpa [hurls] using hmem) hfile, hsame⟩
          | none =>
              dsimp only
              rw [wp_onDisk]
              apply wp_mono wp_downloadPackageToCache
              · rintro filePath disk ⟨fs, dir, hnormal, hprefix⟩
                exact ⟨.cached hnormal hprefix, keeps_withDisk s disk⟩
              · exact fun _ disk _ => keeps_withDisk s disk

theorem checkAccess_ok {now : Moment} (h : checkAccess filePath now = .ok ()) :
    ∃ node, now.disk.fs.access filePath = .ok node := by
  rw [checkAccess] at h
  cases haccess : now.disk.fs.access filePath with
  | error e => simp [haccess] at h
  | ok node => exact ⟨node, rfl⟩

theorem checkDigest_ok {now : Moment} (h : checkDigest host pInfo filePath now = .ok ())
    {t : HashType} {d : Digest t} (hsum : pInfo.checksum = some ⟨t, d⟩) :
    host.getDigestForFile filePath now t = .ok d := by
  simp only [checkDigest, hsum] at h
  cases hdigest : host.getDigestForFile filePath now t with
  | error e => simp [hdigest] at h
  | ok digestFromFile =>
      simp only [hdigest] at h
      split_ifs at h with hne
      rw [not_not.mp hne]

theorem checkSize_ok {now : Moment} (h : checkSize host pInfo filePath now = .ok ()) :
    getFileSize now.disk.fs filePath host.unset = (none, pInfo.dwDownloadSizeBytes.toInt) := by
  rw [checkSize] at h
  cases hfound : getFileSize now.disk.fs filePath host.unset with
  | mk dwError nSize =>
      rw [hfound] at h
      cases dwError with
      | some e => cases h
      | none =>
          dsimp only at h
          split_ifs at h with hne
          rw [not_not.mp hne]

/-- The signature check leaves the books as they are. -/
theorem wp_checkSignature : wp (checkSignature host args conf fuel pRepo filePath)
    (fun trace t => (gpgSigCheck args.toGpgArgs pRepo.repo = true →
        Verified pRepo.repo filePath trace) ∧
      Licensed (Answered args.toGpgArgs pRepo.repo) trace ∧ Keeps s t)
    (fun _ t => Keeps s t) s := by
  rw [checkSignature, wp_bind, wp_get, wp_mapFault, wp_within, wp_bind]
  apply wp_mono (wp_gpgCheckPackage _ _ _ _ _ _ _ rfl)
  · rintro _ g ⟨hverified, hlicensed, -⟩
    exact ⟨hverified, hlicensed, ⟨rfl, rfl, rfl, rfl, rfl⟩⟩
  · exact fun _ _ _ => ⟨rfl, rfl, rfl, rfl, rfl⟩

/-- The repository that a package was found in has its own setting. -/
theorem getGPGCheck_found (args : CmdArgs) (h : findRepoById repos pInfo.pszRepoName = .ok pRepo) :
    ∃ nGPGCheck, getGPGCheck args repos pRepo.repo.pszId = .ok nGPGCheck ∧
      (nGPGCheck = true ↔ Checked args pRepo) := by
  rw [findRepoById] at h
  split_ifs at h with hempty hrepos
  cases hfind : repos.find? fun entry => entry.repo.pszId = pInfo.pszRepoName with
  | none => simp [hfind] at h
  | some entry =>
      simp only [hfind, Except.ok.injEq] at h
      subst h
      have hid : entry.repo.pszId = pInfo.pszRepoName := by simpa using List.find?_some hfind
      rw [getGPGCheck, hid, if_neg hempty, Checked]
      by_cases hoff : args.nNoGPGCheck = true
      · exact ⟨false, if_pos hoff, by simp [hoff]⟩
      · rw [if_neg hoff, hfind]
        exact ⟨entry.repo.nGPGCheck, rfl, by simp [hoff]⟩

theorem wp_addElement {nInstallFlag : InstallFlag} :
    wp (addElement host args nInstallFlag filePath)
      (fun element t => (element = none ∨ element = some (nInstallFlag.element filePath)) ∧
        t.accepted = s.accepted ∧ t.cachedRpms = s.cachedRpms ∧ t.calls = s.calls ∧
        t.now.verify = s.now.verify ∧ t.now.elements = s.now.elements ++ element.toList)
      (fun stop t => stop ≠ .code .noData ∧ t.accepted = s.accepted ∧
        t.cachedRpms = s.cachedRpms ∧ t.calls = s.calls) s := by
  have hfail (rc : ℕ) : TransStop.code (.rpm rc) ≠ .code .noData := by simp
  have hsource : (none : Option Element) = none ∨
      none = some (nInstallFlag.element filePath) := .inl rfl
  rw [addElement, wp_bind, wp_get, wp_ite]
  constructor
  · intro _
    rw [wp_ite]
    constructor
    · intro _
      dsimp only
      rw [wp_ite]
      refine ⟨fun _ => ⟨hfail _, rfl, rfl, rfl⟩, fun _ => ?_⟩
      exact ⟨hsource, rfl, rfl, rfl, rfl, (List.append_nil _).symm⟩
    · exact fun _ => ⟨hsource, rfl, rfl, rfl, rfl, (List.append_nil _).symm⟩
  · intro _
    dsimp only
    rw [wp_ite]
    exact ⟨fun _ => ⟨hfail _, rfl, rfl, rfl⟩, fun _ => ⟨.inr rfl, rfl, rfl, rfl, rfl, rfl⟩⟩

/-- What adding one package leaves. -/
structure Adds (host : Host) (args : CmdArgs) (conf : Conf) (repos : List RepoEntry)
    (nInstallFlag : InstallFlag) (pInfo : PkgInfo) (s : TransState) (a : Accepted)
    (t : TransState) : Prop where
  passed : Passed host args conf repos a
  info : a.pInfo = pInfo
  kind : a.element = none ∨ a.element = some (nInstallFlag.element a.filePath)
  seen : a.seen.verify = s.now.verify
  accepted : t.accepted = s.accepted ++ [a]
  cachedRpms : t.cachedRpms =
    if conf.pszCacheDir <+: a.filePath then a.filePath :: s.cachedRpms else s.cachedRpms
  calls : t.calls = s.calls
  verify : t.now.verify = if Checked args a.pRepo then s.now.verify else .off
  elements : t.now.elements = s.now.elements ++ a.element.toList

/-- What follows the checks of a package. -/
theorem wp_addAndRemember {nInstallFlag : InstallFlag} {a : Accepted} {u : TransState}
    (hpassed : Passed host args conf repos a) (hinfo : a.pInfo = pInfo)
    (hseen : a.seen.verify = s.now.verify) (haccepted : u.accepted = s.accepted)
    (hcached : u.cachedRpms = s.cachedRpms) (hcalls : u.calls = s.calls)
    (hverify : u.now.verify = if Checked args a.pRepo then s.now.verify else .off)
    (helements : u.now.elements = s.now.elements) :
    wp (do
      let element ← addElement host args nInstallFlag a.filePath
      remember conf { a with element := element })
      (fun _ t => ∃ a, Adds host args conf repos nInstallFlag pInfo s a t)
      (fun stop t => Halts s stop t) u := by
  rw [wp_bind]
  apply wp_mono wp_addElement
  · rintro element t ⟨hkind, hacc, hcac, hcal, hver, hele⟩
    refine ⟨{ a with element := element }, ?_⟩
    exact {
      passed := ⟨hpassed.repo, hpassed.origin, hpassed.there, hpassed.digest, hpassed.size,
        hpassed.signed, hpassed.keys⟩
      info := hinfo
      kind := hkind
      seen := hseen
      accepted := by rw [← haccepted, ← hacc]
      cachedRpms := by rw [← hcached, ← hcac]
      calls := hcal.trans hcalls
      verify := hver.trans hverify
      elements := by rw [← helements, ← hele] }
  · rintro stop t ⟨hstop, hacc, hcac, hcal⟩
    exact ⟨hacc.trans haccepted, hcac.trans hcached, hcal.trans hcalls,
      fun hnone => absurd hnone hstop⟩

theorem wp_transAddInstallPkg {nInstallFlag : InstallFlag}
    (hrepo : findRepoById repos pInfo.pszRepoName = .ok pRepo) :
    wp (transAddInstallPkg host args conf repos fuel nInstallFlag pInfo pRepo)
      (fun _ t => ∃ a, Adds host args conf repos nInstallFlag pInfo s a t)
      (fun stop t => Halts s stop t) s := by
  rw [transAddInstallPkg, wp_bind]
  apply wp_mono wp_packageFile
  · rintro filePath u ⟨horigin, hu⟩
    rw [wp_bind, wp_get, wp_bind, wp_fromExcept]
    refine ⟨fun _ haccess => ?_, fun _ _ => hu.halts _⟩
    rw [wp_bind, wp_fromExcept]
    refine ⟨fun _ hdigest => ?_, fun _ _ => hu.halts _⟩
    rw [wp_bind, wp_fromExcept]
    refine ⟨fun _ hsize => ?_, fun _ _ => hu.halts _⟩
    rw [wp_bind]
    apply wp_mono wp_checkSignature
    · rintro trace v ⟨hsigned, hkeys, hv⟩
      have hkept := hu.trans hv
      have hpassed : Passed host args conf repos
          ⟨pInfo, pRepo, filePath, none, u.now, trace⟩ :=
        ⟨hrepo, horigin, checkAccess_ok haccess, fun _ _ => checkDigest_ok hdigest,
          checkSize_ok hsize, hsigned, hkeys⟩
      obtain ⟨nGPGCheck, hget, hchecked⟩ := getGPGCheck_found args hrepo
      rw [wp_bind]
      refine wp_bail (fun nGPGCheck' hget' => ?_) fun e herror => ?_
      · obtain rfl : nGPGCheck = nGPGCheck' := Except.ok.inj (hget.symm.trans hget')
        rw [wp_ite]
        constructor
        · intro hoff
          have hunchecked : ¬ Checked args pRepo := by simpa [← hchecked] using hoff
          refine wp_addAndRemember hpassed rfl hu.verify hkept.accepted hkept.cachedRpms
            hkept.calls ?_ hkept.elements
          rw [if_neg hunchecked]
        · intro hon
          have hcheck : Checked args pRepo := by simpa [← hchecked] using hon
          refine wp_addAndRemember hpassed rfl hu.verify hkept.accepted hkept.cachedRpms
            hkept.calls ?_ hkept.elements
          rw [if_pos hcheck, hkept.verify]
      · cases herror.symm.trans hget
    · exact fun stop t ht => (hu.trans ht).halts stop
  · exact fun _ t ht => ht.halts _

theorem wp_transAddPkg {nInstallFlag : InstallFlag} :
    wp (transAddPkg host args conf repos fuel nInstallFlag pInfo)
      (fun _ t => ∃ a, Adds host args conf repos nInstallFlag pInfo s a t)
      (fun stop t => Halts s stop t) s := by
  rw [transAddPkg, wp_bind]
  exact wp_bail (fun pRepo hrepo => wp_transAddInstallPkg hrepo)
    fun e _ => (keeps_withDisk s s.now.disk).halts _

end Steps

/-! ## Populating a transaction -/

/-- What holds of the books, whatever happens. -/
structure Booked (host : Host) (args : CmdArgs) (conf : Conf) (repos : List RepoEntry)
    (v : Verification) (s : TransState) : Prop where
  passed : ∀ a ∈ s.accepted, Passed host args conf repos a
  seen : Licensed (fun before a => a.seen.verify = verifiedAfter args v before) s.accepted
  cachedRpms : s.cachedRpms = cachedOf conf s.accepted
  calls : s.calls = []

/-- What holds between two packages. -/
structure Ready (host : Host) (args : CmdArgs) (conf : Conf) (repos : List RepoEntry)
    (v : Verification) (s : TransState) : Prop extends Booked host args conf repos v s where
  verify : s.now.verify = verifiedAfter args v s.accepted

section Populating

variable {host : Host} {args : CmdArgs} {conf : Conf} {repos : List RepoEntry} {fuel : ℕ}
  {v : Verification} {nInstallFlag : InstallFlag} {pInfo : PkgInfo} {pInfos : List PkgInfo}
  {s t u : TransState} {a : Accepted} {stop : TransStop}

theorem verifiedAfter_concat (before : List Accepted) (a : Accepted) :
    verifiedAfter args v (before ++ [a]) =
      if Checked args a.pRepo then verifiedAfter args v before else .off := by
  simp only [verifiedAfter, List.forall_mem_append, List.forall_mem_singleton]
  by_cases ha : Checked args a.pRepo
  · simp [ha]
  · simp [ha]

theorem cachedOf_concat (accepted : List Accepted) (a : Accepted) :
    cachedOf conf (accepted ++ [a]) =
      if conf.pszCacheDir <+: a.filePath then a.filePath :: cachedOf conf accepted
      else cachedOf conf accepted := by
  rw [cachedOf, List.map_append, List.filter_append, List.reverse_append]
  by_cases ha : conf.pszCacheDir <+: a.filePath
  · simp [ha, cachedOf]
  · simp [ha, cachedOf]

theorem Booked.frame (h : Booked host args conf repos v s) (haccepted : t.accepted = s.accepted)
    (hcached : t.cachedRpms = s.cachedRpms) (hcalls : t.calls = s.calls) :
    Booked host args conf repos v t where
  passed := by
    rw [haccepted]
    exact h.passed
  seen := by
    rw [haccepted]
    exact h.seen
  cachedRpms := by rw [hcached, haccepted, h.cachedRpms]
  calls := hcalls.trans h.calls

theorem Ready.frame (h : Ready host args conf repos v s) (haccepted : t.accepted = s.accepted)
    (hcached : t.cachedRpms = s.cachedRpms) (hcalls : t.calls = s.calls)
    (hverify : t.now.verify = s.now.verify) : Ready host args conf repos v t :=
  ⟨h.toBooked.frame haccepted hcached hcalls, by rw [hverify, haccepted, h.verify]⟩

/-- One more package. -/
theorem Ready.adds (h : Ready host args conf repos v s)
    (ha : Adds host args conf repos nInstallFlag pInfo s a t) :
    Ready host args conf repos v t where
  passed := by
    rw [ha.accepted, List.forall_mem_append, List.forall_mem_singleton]
    exact ⟨h.passed, ha.passed⟩
  seen := by
    rw [ha.accepted]
    exact h.seen.concat (ha.seen.trans h.verify)
  cachedRpms := by rw [ha.cachedRpms, ha.accepted, cachedOf_concat, h.cachedRpms]
  calls := ha.calls.trans h.calls
  verify := by rw [ha.verify, ha.accepted, verifiedAfter_concat, h.verify]

/-- What adding packages leaves. -/
structure Grown (nInstallFlag : InstallFlag) (s t : TransState) (as : List Accepted) : Prop where
  kinds : ∀ a ∈ as, a.element = none ∨ a.element = some (nInstallFlag.element a.filePath)
  accepted : t.accepted = s.accepted ++ as
  elements : t.now.elements = s.now.elements ++ as.filterMap Accepted.element

theorem Grown.nil (haccepted : t.accepted = s.accepted)
    (helements : t.now.elements = s.now.elements) : Grown nInstallFlag s t [] :=
  ⟨by simp, by simp [haccepted], by simp [helements]⟩

theorem Grown.cons {as : List Accepted}
    (ha : Adds host args conf repos nInstallFlag pInfo s a t) (h : Grown nInstallFlag t u as) :
    Grown nInstallFlag s u (a :: as) where
  kinds := List.forall_mem_cons.mpr ⟨ha.kind, h.kinds⟩
  accepted := by simp [h.accepted, ha.accepted]
  elements := by
    rw [h.elements, ha.elements]
    cases hkind : a.element with
    | none => simp [hkind]
    | some element => simp [hkind]

theorem Taken.cons {as : List Accepted}
    (h : Taken host args conf repos fuel nInstallFlag pInfos as) (hinfo : a.pInfo = pInfo)
    (hgrown : Grown nInstallFlag s u (a :: as)) :
    Taken host args conf repos fuel nInstallFlag (pInfo :: pInfos) (a :: as) where
  kinds := hgrown.kinds
  infos := by
    rw [List.map_cons, hinfo]
    obtain hall | ⟨next, rest, s', t', hrest, hrun⟩ := h.infos
    · exact .inl (by rw [hall])
    · exact .inr ⟨next, rest, s', t', by rw [hrest, List.cons_append], hrun⟩

/-- The loop over the packages of a list. -/
theorem wp_forM_transAddPkg (hs : Ready host args conf repos v s) :
    wp (pInfos.forM (transAddPkg host args conf repos fuel nInstallFlag))
      (fun _ t => Ready host args conf repos v t ∧ ∃ as, as.map Accepted.pInfo = pInfos ∧
        Grown nInstallFlag s t as)
      (fun stop t => Booked host args conf repos v t ∧ (stop = .code .noData →
        Ready host args conf repos v t ∧ ∃ as,
          Taken host args conf repos fuel nInstallFlag pInfos as ∧ Grown nInstallFlag s t as)) s := by
  induction pInfos generalizing s with
  | nil => exact ⟨hs, [], rfl, .nil rfl rfl⟩
  | cons pInfo pInfos ih =>
      change wp (transAddPkg host args conf repos fuel nInstallFlag pInfo >>= fun _ =>
        pInfos.forM (transAddPkg host args conf repos fuel nInstallFlag)) _ _ s
      rw [wp_bind]
      apply wp_mono (wp_run wp_transAddPkg)
      · rintro _ t ⟨⟨a, ha⟩, -⟩
        apply wp_mono (ih (hs.adds ha))
        · rintro _ u ⟨hready, as, rfl, hgrown⟩
          exact ⟨hready, a :: as, by rw [List.map_cons, ha.info], hgrown.cons ha⟩
        · rintro stop u ⟨hbooked, hnone⟩
          refine ⟨hbooked, fun hstop => ?_⟩
          obtain ⟨hready, as, htaken, hgrown⟩ := hnone hstop
          exact ⟨hready, a :: as, htaken.cons ha.info (hgrown.cons ha), hgrown.cons ha⟩
      · rintro stop t ⟨hhalts, hrun⟩
        refine ⟨hs.toBooked.frame hhalts.accepted hhalts.cachedRpms hhalts.calls, ?_⟩
        rintro rfl
        have hkept := hhalts.noData rfl
        refine ⟨hs.frame hkept.accepted hkept.cachedRpms hkept.calls hkept.verify, [], ?_,
          .nil hkept.accepted hkept.elements⟩
        exact ⟨by simp, .inr ⟨pInfo, pInfos, s, t, rfl, hrun⟩⟩

/-- `TDNFTransAddInstallPkgs` -/
theorem wp_transAddInstallPkgs (hs : Ready host args conf repos v s) :
    wp (transAddInstallPkgs host args conf repos fuel nInstallFlag pInfos)
      (fun _ t => Ready host args conf repos v t ∧ ∃ as,
        Taken host args conf repos fuel nInstallFlag pInfos as ∧ Grown nInstallFlag s t as)
      (fun _ t => Booked host args conf repos v t) s := by
  rw [transAddInstallPkgs, ignoringNoData, wp_bind, wp_attempt]
  apply wp_mono (wp_forM_transAddPkg hs)
  · rintro _ t ⟨hready, as, hinfos, hgrown⟩
    exact ⟨hready, as, ⟨hgrown.kinds, .inl hinfos⟩, hgrown⟩
  · rintro stop t ⟨hbooked, hnone⟩
    dsimp only
    rw [wp_ite]
    exact ⟨hnone, fun _ => hbooked⟩

/-- A loop whose rounds add elements adds those of all of them. -/
theorem wp_forM_withElements {α : Type} {f : α → TransProc Unit} {g : α → List Element}
    (hf : ∀ a s, wp (f a) (fun _ t => t = s.withElements (g a))
      (fun stop t => stop ≠ .code .noData ∧ ∃ elements, t = s.withElements elements) s)
    (l : List α) (s : TransState) :
    wp (l.forM f) (fun _ t => t = s.withElements (l.flatMap g))
      (fun stop t => stop ≠ .code .noData ∧ ∃ elements, t = s.withElements elements) s := by
  have happend (s : TransState) (xs ys : List Element) :
      (s.withElements xs).withElements ys = s.withElements (xs ++ ys) := by
    simp [TransState.withElements]
  induction l generalizing s with
  | nil => simp [TransState.withElements]
  | cons a l ih =>
      change wp (f a >>= fun _ => l.forM f) _ _ s
      rw [wp_bind]
      apply wp_mono (hf a s)
      · rintro _ t rfl
        apply wp_mono (ih _)
        · rintro _ u rfl
          rw [happend, List.flatMap_cons]
        · rintro stop u ⟨hstop, elements, rfl⟩
          exact ⟨hstop, g a ++ elements, happend s _ _⟩
      · exact fun _ _ h => h

/-- The packages with a label are erased. -/
theorem wp_transAddErasePkg (pInfo : PkgInfo) (s : TransState) :
    wp (transAddErasePkg host (fullName pInfo))
      (fun _ t => t = s.withElements (erasures host [pInfo]))
      (fun stop t => stop ≠ .code .noData ∧ ∃ elements, t = s.withElements elements) s := by
  have hnil (s : TransState) : s = s.withElements [] := by simp [TransState.withElements]
  have hname : fullName pInfo ≠ [] := by simp [fullName]
  rw [transAddErasePkg, if_neg hname]
  refine wp_mono (wp_forM_withElements
    (g := fun nOffset => if nOffset ≠ 0 then [.erase nOffset] else []) ?_ _ s) ?_ fun _ _ h => h
  · intro nOffset s
    by_cases hzero : nOffset ≠ 0
    · rw [if_pos hzero, if_pos hzero, wp_bind, wp_get]
      dsimp only
      rw [wp_ite]
      exact ⟨fun _ => ⟨by simp, [], hnil s⟩, fun _ => rfl⟩
    · rw [if_neg hzero, if_neg hzero]
      exact hnil s
  · rintro _ t rfl
    rw [erasures, List.flatMap_singleton]
    congr 1
    induction host.labelOffsets (fullName pInfo) with
    | nil => rfl
    | cons nOffset rest ih =>
        rw [List.flatMap_cons, ih, List.filter_cons]
        by_cases hzero : nOffset ≠ 0
        · simp [hzero]
        · simp [hzero]

/-- `TDNFTransAddErasePkgs` -/
theorem wp_transAddErasePkgs (hs : Ready host args conf repos v s) :
    wp (transAddErasePkgs host pInfos)
      (fun _ t => Ready host args conf repos v t ∧ t.accepted = s.accepted ∧
        t.now.elements = s.now.elements ++ erasures host pInfos)
      (fun _ t => Booked host args conf repos v t) s := by
  have hflat : pInfos.flatMap (fun pInfo => erasures host [pInfo]) = erasures host pInfos := by
    simp [erasures]
  rw [transAddErasePkgs, ignoringNoData, wp_bind, wp_attempt]
  apply wp_mono (wp_forM_withElements wp_transAddErasePkg pInfos s)
  · rintro _ t rfl
    rw [hflat]
    exact ⟨hs.frame rfl rfl rfl rfl, rfl, rfl⟩
  · rintro stop t ⟨hstop, elements, rfl⟩
    dsimp only
    rw [if_neg hstop]
    exact hs.toBooked.frame rfl rfl rfl

/-- `TDNFPopulateTransaction`, on an empty transaction set. -/
theorem wp_populateTransaction {info : SolvedPkgInfo} (hs : Ready host args conf repos v s)
    (haccepted : s.accepted = []) (helements : s.now.elements = []) :
    wp (populateTransaction host args conf repos fuel info)
      (fun _ t => Ready host args conf repos v t ∧ ∃ installs reinstalls upgrades downgrades,
        Contents host args conf repos fuel info t.accepted t.now.elements installs reinstalls
          upgrades downgrades)
      (fun _ t => Booked host args conf repos v t) s := by
  rw [populateTransaction, wp_bind]
  apply wp_mono (wp_transAddInstallPkgs hs) _ fun _ _ h => h
  rintro _ t₁ ⟨h₁, installs, hinstalls, g₁⟩
  rw [wp_bind]
  apply wp_mono (wp_transAddInstallPkgs h₁) _ fun _ _ h => h
  rintro _ t₂ ⟨h₂, reinstalls, hreinstalls, g₂⟩
  rw [wp_bind]
  apply wp_mono (wp_transAddInstallPkgs h₂) _ fun _ _ h => h
  rintro _ t₃ ⟨h₃, upgrades, hupgrades, g₃⟩
  rw [wp_bind]
  apply wp_mono (wp_transAddErasePkgs h₃) _ fun _ _ h => h
  rintro _ t₄ ⟨h₄, a₄, e₄⟩
  rw [wp_bind]
  apply wp_mono (wp_transAddErasePkgs h₄) _ fun _ _ h => h
  rintro _ t₅ ⟨h₅, a₅, e₅⟩
  rw [wp_bind]
  apply wp_mono (wp_transAddInstallPkgs h₅) _ fun _ _ h => h
  rintro _ t₆ ⟨h₆, downgrades, hdowngrades, g₆⟩
  have hall : t₆.accepted = installs ++ reinstalls ++ upgrades ++ downgrades := by
    rw [g₆.accepted, a₅, a₄, g₃.accepted, g₂.accepted, g₁.accepted, haccepted, List.nil_append]
  have hset : t₆.now.elements = installs.filterMap Accepted.element ++
      reinstalls.filterMap Accepted.element ++ upgrades.filterMap Accepted.element ++
      erasures host info.pPkgsToRemove ++ erasures host info.pPkgsObsoleted ++
      downgrades.filterMap Accepted.element := by
    rw [g₆.elements, e₅, e₄, g₃.elements, g₂.elements, g₁.elements, helements, List.nil_append]
  rw [wp_ite]
  constructor
  · intro hdown
    apply wp_mono (wp_transAddErasePkgs h₆) _ fun _ _ h => h
    rintro _ t₇ ⟨h₇, a₇, e₇⟩
    refine ⟨h₇, installs, reinstalls, upgrades, downgrades, hinstalls, hreinstalls, hupgrades,
      hdowngrades, a₇.trans hall, ?_⟩
    rw [if_pos hdown, e₇, hset]
  · intro hdown
    refine ⟨h₆, installs, reinstalls, upgrades, downgrades, hinstalls, hreinstalls, hupgrades,
      hdowngrades, hall, ?_⟩
    rw [if_neg hdown, hset, List.append_nil]

end Populating

/-! ## Running a transaction -/

/-- What running a transaction leaves. -/
structure Ran (args : CmdArgs) (info : SolvedPkgInfo) (s t : TransState) : Prop where
  accepted : t.accepted = s.accepted
  cachedRpms : t.cachedRpms = s.cachedRpms
  elements : t.now.elements = s.now.elements
  disk : t.now.disk = s.now.disk
  calls : Licensed (Follows args info (runVerification args s.now.verify) s.now.elements) t.calls

section Running

variable {host : Host} {args : CmdArgs} {conf : Conf} {info : SolvedPkgInfo} {s u : TransState}

theorem Ran.record (h : Ran args info s u) (call : RpmCall)
    (hcall : Follows args info (runVerification args s.now.verify) s.now.elements u.calls call) :
    Ran args info s { u with calls := u.calls ++ [call] } :=
  ⟨h.accepted, h.cachedRpms, h.elements, h.disk, h.calls.concat hcall⟩

theorem Ran.verify (h : Ran args info s u) (v : Verification) :
    Ran args info s { u with now := { u.now with verify := v } } :=
  ⟨h.accepted, h.cachedRpms, h.elements, h.disk, h.calls⟩

theorem wp_doCheck (h : Ran args info s u) (hcalls : u.calls = [.order 0]) :
    wp (doCheck host) (fun _ t => Ran args info s t ∧ t.now = u.now ∧
        t.calls = [.order 0, .check 0 0])
      (fun _ t => Ran args info s t) u := by
  rw [doCheck, wp_bind, wp_get]
  have hrecord (rc nProbs : ℕ) : Ran args info s { u with calls := u.calls ++ [.check rc nProbs] } :=
    h.record _ hcalls
  dsimp only
  rw [wp_bind, RpmTrans.record, wp_modify, wp_ite]
  refine ⟨fun _ => hrecord _ _, fun hprobs => ?_⟩
  rw [wp_ite]
  refine ⟨fun _ => hrecord _ _, fun hrc => ⟨hrecord _ _, rfl, ?_⟩⟩
  rw [hcalls, not_not.mp hrc, Nat.eq_zero_of_not_pos hprobs]
  rfl

theorem wp_rpmtsRun {flags : TransFlags} (h : Ran args info s u)
    (hcall : ∀ rc, Follows args info (runVerification args s.now.verify) s.now.elements u.calls
      (.run flags u.now.verify u.now.elements rc)) :
    wp (rpmtsRun host flags) (fun _ t => Ran args info s t ∧ t.now = u.now ∧
        t.calls = u.calls ++ [.run flags u.now.verify u.now.elements 0])
      (fun _ t => Ran args info s t) u := by
  rw [rpmtsRun, wp_bind, wp_get]
  dsimp only
  rw [wp_bind, RpmTrans.record, wp_modify, wp_ite]
  refine ⟨fun _ => h.record _ (hcall _), fun hrc => ⟨h.record _ (hcall _), rfl, ?_⟩⟩
  rw [not_not.mp hrc]

/-- The test and the run behind it. -/
theorem wp_testAndRun (h : Ran args info s u) (hcalls : u.calls = [.order 0, .check 0 0])
    (hverify : u.now.verify = runVerification args s.now.verify) :
    wp (do
      rpmtsRun host (testFlags info)
      if !args.nTestOnly then
        if 0 < conf.nOpenMax then bail host.setOpenMax
        rpmtsRun host (transFlags args info))
      (fun _ t => Ran args info s t) (fun _ t => Ran args info s t) u := by
  rw [wp_bind]
  apply wp_mono (wp_rpmtsRun h fun rc => ⟨hverify, h.elements, .inl ⟨rfl, hcalls⟩⟩) _
    fun _ _ h => h
  rintro _ w ⟨hw, hnow, hcalls'⟩
  rw [wp_ite]
  refine ⟨fun htest => ?_, fun _ => hw⟩
  have hreal : wp (rpmtsRun host (transFlags args info)) (fun _ t => Ran args info s t)
      (fun _ t => Ran args info s t) w := by
    apply wp_mono (wp_rpmtsRun hw ?_) (fun _ _ h => h.1) fun _ _ h => h
    intro rc
    refine ⟨by rw [hnow, hverify], hw.elements, .inr ⟨rfl, by simpa using htest, ?_⟩⟩
    rw [hcalls', hcalls, hverify, h.elements]
    rfl
  rw [wp_ite]
  refine ⟨fun _ => ?_, fun _ => hreal⟩
  rw [wp_bind]
  exact wp_bail (fun _ _ => hreal) fun _ _ => hw

/-- `TDNFRunTransaction` -/
theorem wp_runTransaction (hcalls : s.calls = []) :
    wp (runTransaction host args conf info) (fun _ t => Ran args info s t)
      (fun _ t => Ran args info s t) s := by
  have hstart : Ran args info s s := ⟨rfl, rfl, rfl, rfl, hcalls ▸ licensed_nil⟩
  rw [runTransaction, wp_bind, wp_get]
  dsimp only
  have hordered := hstart.record (.order (host.rpmtsOrder s.now)) hcalls
  rw [wp_bind, record, wp_modify, wp_ite]
  refine ⟨fun _ => hordered, fun hrc => ?_⟩
  rw [wp_bind]
  have hfirst : s.calls ++ [.order (host.rpmtsOrder s.now)] = [.order 0] := by
    rw [hcalls, not_not.mp hrc]
    rfl
  apply wp_mono (wp_doCheck hordered hfirst) _ fun _ _ h => h
  rintro _ u ⟨hu, hnow, hcalls⟩
  rw [wp_ite]
  refine ⟨fun _ => hu, fun _ => ?_⟩
  rw [wp_bind, modifyNow, wp_modify]
  exact wp_testAndRun (hu.verify _) hcalls (congrArg (fun now => runVerification args now.verify) hnow)

end Running

/-! ## The whole transaction -/

/-- What holds at the end of a transaction. -/
structure Outcome (host : Host) (args : CmdArgs) (conf : Conf) (repos : List RepoEntry) (fuel : ℕ)
    (info : SolvedPkgInfo) (v : Verification) (t : TransState) : Prop where
  passed : ∀ a ∈ t.accepted, Passed host args conf repos a
  seen : Licensed (fun before a => a.seen.verify = verifiedAfter args v before) t.accepted
  cachedRpms : t.cachedRpms = cachedOf conf t.accepted
  calls : t.calls ≠ [] → args.nDownloadOnly = false ∧
    (∃ installs reinstalls upgrades downgrades, Contents host args conf repos fuel info
      t.accepted t.now.elements installs reinstalls upgrades downgrades) ∧
    Licensed (Follows args info (runVerification args (verifiedAfter args v t.accepted))
      t.now.elements) t.calls

/-- The state that a transaction ends with. -/
def finalOf (host : Host) (args : CmdArgs) (conf : Conf) (repos : List RepoEntry) (fuel : ℕ)
    (info : SolvedPkgInfo) (fs : Tree) (stdin : List Text) (v : Verification) : TransState :=
  finalState ((rpmExecTransaction host args conf repos fuel info).run (.start fs stdin v))

section Whole

variable (host : Host) (args : CmdArgs) (conf : Conf) (repos : List RepoEntry) (fuel : ℕ)
  (info : SolvedPkgInfo) (fs : Tree) (stdin : List Text) (v : Verification)

theorem Booked.outcome {s : TransState} (h : Booked host args conf repos v s) :
    Outcome host args conf repos fuel info v s :=
  ⟨h.passed, h.seen, h.cachedRpms, fun hcalls => absurd h.calls hcalls⟩

theorem ready_start : Ready host args conf repos v (.start fs stdin v) where
  passed := by simp [TransState.start]
  seen := licensed_nil
  cachedRpms := rfl
  calls := rfl
  verify := by simp [TransState.start, verifiedAfter]

theorem wp_rpmCreateTS : wp (rpmCreateTS host args conf repos fuel info)
    (fun _ t => Ready host args conf repos v t ∧ ∃ installs reinstalls upgrades downgrades,
      Contents host args conf repos fuel info t.accepted t.now.elements installs reinstalls
        upgrades downgrades)
    (fun _ t => Booked host args conf repos v t) (.start fs stdin v) := by
  have hstart := ready_start host args conf repos fs stdin v
  rw [rpmCreateTS, wp_ite]
  refine ⟨fun _ => hstart.toBooked, fun _ => ?_⟩
  rw [wp_ite]
  refine ⟨fun _ => hstart.toBooked, fun _ => ?_⟩
  rw [wp_ite]
  exact ⟨fun _ => hstart.toBooked, fun _ => wp_populateTransaction hstart rfl rfl⟩

theorem wp_execTransaction : wp (execTransaction host args conf repos fuel info)
    (fun _ t => Outcome host args conf repos fuel info v t)
    (fun _ t => Outcome host args conf repos fuel info v t) (.start fs stdin v) := by
  rw [execTransaction, wp_bind]
  apply wp_mono (wp_rpmCreateTS host args conf repos fuel info fs stdin v)
  · rintro _ s ⟨hready, hcontents⟩
    have hbooked := hready.toBooked.outcome host args conf repos fuel info v
    have hrun : wp (runTransaction host args conf info)
        (fun _ t => args.nDownloadOnly = false → Outcome host args conf repos fuel info v t)
        (fun _ t => args.nDownloadOnly = false → Outcome host args conf repos fuel info v t) s := by
      have hran (t : TransState) (ht : Ran args info s t) (hdown : args.nDownloadOnly = false) :
          Outcome host args conf repos fuel info v t := by
        refine ⟨?_, ?_, ?_, fun _ => ⟨hdown, ?_, ?_⟩⟩
        · rw [ht.accepted]
          exact hready.passed
        · rw [ht.accepted]
          exact hready.seen
        · rw [ht.accepted, ht.cachedRpms, hready.cachedRpms]
        · rw [ht.accepted, ht.elements]
          exact hcontents
        · rw [ht.accepted, ht.elements, ← hready.verify]
          exact ht.calls
      exact wp_mono (wp_runTransaction hready.calls) (fun _ => hran) fun _ => hran
    rw [wp_ite]
    refine ⟨fun hdown => ?_, fun _ => hbooked⟩
    have hdown : args.nDownloadOnly = false := by simpa using hdown
    rw [wp_ite]
    constructor
    · intro _
      rw [wp_bind]
      refine wp_bail (fun _ _ => ?_) fun _ _ => hbooked
      rw [wp_bind]
      apply wp_mono hrun _ fun _ _ h => h hdown
      intro _ t ht
      rw [wp_bind, wp_get]
      exact wp_bail (fun _ _ => ht hdown) fun _ _ => ht hdown
    · exact fun _ => wp_mono hrun (fun _ _ h => h hdown) fun _ _ h => h hdown
  · exact fun _ t ht => ht.outcome host args conf repos fuel info v

/-- The cleanup removes files, and nothing else changes. -/
theorem Outcome.cleanup {t : TransState} (h : Outcome host args conf repos fuel info v t) :
    Outcome host args conf repos fuel info v (rpmCleanupTS args conf t) := by
  rw [rpmCleanupTS]
  split_ifs
  · exact ⟨h.passed, h.seen, h.cachedRpms, h.calls⟩
  · exact h

theorem outcome_finalOf : Outcome host args conf repos fuel info v
    (finalOf host args conf repos fuel info fs stdin v) := by
  rw [finalOf]
  apply finalState_of_wp
  rw [rpmExecTransaction, wp_bind, wp_attempt]
  apply wp_mono (wp_execTransaction host args conf repos fuel info fs stdin v)
  · exact fun _ t ht => ht.cleanup host args conf repos fuel info v
  · intro stop t ht
    dsimp only
    rw [wp_ite]
    exact ⟨fun _ => ht.cleanup host args conf repos fuel info v, fun _ => ht⟩

theorem verifiedAfter_eq (before : List Accepted) : verifiedAfter args v before =
    if args.nNoGPGCheck = true ∧ before ≠ [] ∨ ∃ b ∈ before, b.pRepo.repo.nGPGCheck = false then
      .off else v := by
  rw [verifiedAfter]
  by_cases hall : ∀ a ∈ before, Checked args a.pRepo
  · rw [if_pos hall, if_neg]
    rintro (⟨hoff, hne⟩ | ⟨b, hb, hunchecked⟩)
    · obtain ⟨b, hb⟩ := List.exists_mem_of_ne_nil before hne
      simp [(hall b hb).1] at hoff
    · simp [(hall b hb).2] at hunchecked
  · rw [if_neg hall, if_pos]
    simp only [Checked, not_forall, not_and, Bool.not_eq_true] at hall
    obtain ⟨b, hb, hunchecked⟩ := hall
    cases hoff : args.nNoGPGCheck with
    | true => exact .inl ⟨rfl, List.ne_nil_of_mem hb⟩
    | false => exact .inr ⟨b, hb, hunchecked hoff⟩

/-- What is masked in a run. -/
theorem masks_runVerification (accepted : List Accepted) :
    ((runVerification args (verifiedAfter args v accepted)).noSignatures = true ↔
      v.noSignatures = true ∨ args.nNoGPGCheck = true ∨
        isSetOpt args "skipsignature".toList = true ∨
        ∃ a ∈ accepted, a.pRepo.repo.nGPGCheck = false) ∧
    ((runVerification args (verifiedAfter args v accepted)).noDigests = true ↔
      v.noDigests = true ∨ args.nNoGPGCheck = true ∨ isSetOpt args "skipdigest".toList = true ∨
        ∃ a ∈ accepted, a.pRepo.repo.nGPGCheck = false) := by
  rw [verifiedAfter_eq, runVerification]
  generalize isSetOpt args "skipsignature".toList = skipSignature
  generalize isSetOpt args "skipdigest".toList = skipDigest
  cases hoff : args.nNoGPGCheck with
  | true => simp [Verification.off]
  | false =>
      by_cases hunchecked : ∃ a ∈ accepted, a.pRepo.repo.nGPGCheck = false
      · simp only [Bool.false_eq_true, false_and, false_or, if_pos hunchecked]
        cases skipSignature <;> cases skipDigest <;> simp [Verification.off, hunchecked]
      · simp only [Bool.false_eq_true, false_and, false_or, if_neg hunchecked]
        cases skipSignature <;> cases skipDigest <;> simp [hunchecked]

end Whole

/-- Everything succeeds. -/
def obliging : Host where
  gpg := fun _ => { secondKeyMatches with rpmReadPackageFile := fun _ _ => 0 }
  net := fun _ _ _ => ⟨none, fun _ => ⟨0, 0⟩, .ok 200, none⟩
  unset := 0
  getDigestForFile := fun _ _ _ => .error .invalidParameter
  headerIsSource := fun _ _ => false
  rpmInstallSource := fun _ _ => 0
  rpmtsAddElement := fun _ _ => 0
  labelOffsets := fun _ => []
  rpmtsCreate := true
  rpmtsSetRootDir := 0
  rpmtsSetNotifyCallback := 0
  rpmtsOrder := fun _ => 0
  rpmtsCheck := fun _ => 0
  rpmpsNumProblems := fun _ => 0
  fdDup := true
  setOpenMax := .ok ()
  rpmtsRun := fun _ _ => 0
  historyBefore := .ok ()
  historyAfter := fun _ => .ok ()

theorem createRepo_retried (nSSLVerify : Bool) (pszId : Text) :
    0 ≤ (createRepo nSSLVerify pszId).nRetries := by
  simp [createRepo]

/-- A repository, and whether the signatures of its packages are checked. -/
def entryOf (pszId : Text) (nGPGCheck : Bool) : RepoEntry :=
  ⟨{ createRepo true pszId with nGPGCheck := nGPGCheck }, createRepo_retried true pszId⟩

/-- Files of three bytes in the root directory. -/
def flatTree : Tree where
  node := fun l => if l = [] then some .dir else if l.length = 1 then some (.file 3) else none
  root := rfl
  holder := by
    intro name d h
    cases d with
    | nil => rfl
    | cons name' d => simp at h

/-- A package in a file. -/
def givenPkg (pszLocation pszRepoName : Text) : PkgInfo :=
  ⟨"p".toList, "1-1".toList, pszLocation, pszRepoName, none, 3⟩

-- the unchecked repository comes first, and nothing is verified from then on
example : ((finalOf obliging ⟨⟨false, false, false, []⟩, false, false, false, none⟩
    ⟨"/c".toList, false, 0⟩ [entryOf "open".toList false, entryOf "checked".toList true] 0
    ⟨[givenPkg "/a".toList "checked".toList, givenPkg "/b".toList "open".toList,
      givenPkg "/c".toList "checked".toList], [], [], [], [], [], []⟩
    flatTree [] ⟨false, false, true, true⟩).accepted.map fun a => a.seen.verify) =
    [⟨false, false, true, true⟩, ⟨false, false, true, true⟩, .off] := by
  decide +kernel

/-! ## The cleanup -/

/-- A removal empties its place, and nothing else changes. -/
theorem unlink_nodes {fs fs' : Tree} {path : Text} (h : fs.unlink path = .ok fs') (l : Loc) :
    fs'.node l = if l = locOf path then none else fs.node l := by
  obtain ⟨e, hresolve, h⟩ := exists_of_bind_ok h
  rw [← Tree.resolve_loc hresolve]
  split_ifs at h with hnone hdir
  · cases h
    exact Tree.remove_node hdir l

/-- The files are removed in their order, up to the first that cannot be. -/
theorem removeCachedRpms_spec (paths : List Text) (disk : Disk) :
    ∃ removed rest, paths.filter (· ≠ []) = removed ++ rest ∧
      (∀ l, (removeCachedRpms paths disk).fs.node l =
        if l ∈ removed.map locOf then none else disk.fs.node l) ∧
      (rest = [] ∨ ∃ path e, rest.head? = some path ∧
        (removeCachedRpms paths disk).fs.unlink path = .error e) ∧
      ((∀ path ∈ paths, disk.fs.Reaches path ∧
          ∃ size, disk.fs.node (locOf path) = some (.file size)) →
        (paths.map locOf).Nodup → rest = []) := by
  induction paths generalizing disk with
  | nil => exact ⟨[], [], rfl, by simp [removeCachedRpms], .inl rfl, fun _ _ => rfl⟩
  | cons path paths ih =>
      rw [removeCachedRpms]
      by_cases hempty : path = []
      · obtain ⟨removed, rest, hsplit, hnode, hstop, hall⟩ := ih disk
        rw [if_pos hempty]
        refine ⟨removed, rest, by simpa [hempty] using hsplit, hnode, hstop, ?_⟩
        intro hfiles hnodup
        rw [List.forall_mem_cons] at hfiles
        rw [List.map_cons, List.nodup_cons] at hnodup
        exact hall hfiles.2 hnodup.2
      · rw [if_neg hempty]
        cases hunlink : disk.fs.unlink path with
        | error e =>
            refine ⟨[], path :: paths.filter (· ≠ []), by simp [hempty], by simp, ?_, ?_⟩
            · exact .inr ⟨path, e, rfl, hunlink⟩
            · intro hfiles _
              obtain ⟨hreaches, size, hfile⟩ := hfiles path List.mem_cons_self
              obtain ⟨fs, hok, -⟩ := hreaches.unlink_file hfile
              cases hok.symm.trans hunlink
        | ok fs =>
            obtain ⟨removed, rest, hsplit, hnode, hstop, hall⟩ := ih { disk with fs := fs }
            have hfs := unlink_nodes hunlink
            refine ⟨path :: removed, rest, ?_, fun l => ?_, hstop, ?_⟩
            · rw [List.filter_cons_of_pos (by simpa using hempty), hsplit, List.cons_append]
            · rw [hnode, hfs]
              by_cases hl : l = locOf path
              · simp [hl]
              · simp [hl]
            · intro hfiles hnodup
              rw [List.forall_mem_cons] at hfiles
              rw [List.map_cons, List.nodup_cons] at hnodup
              refine hall (fun other hother => ?_) hnodup.2
              obtain ⟨hreaches, size, hfile⟩ := hfiles.2 other hother
              have hne : locOf other ≠ locOf path :=
                fun hloc => hnodup.1 (hloc ▸ List.mem_map_of_mem hother)
              refine ⟨hreaches.of_dirs fun d hd => Tree.unlink_dirs hunlink hd, size, ?_⟩
              rw [hfs, if_neg hne, hfile]

section Cleanup

variable (host : Host) (args : CmdArgs) (conf : Conf) (repos : List RepoEntry) (fuel : ℕ)
  (info : SolvedPkgInfo) (fs : Tree) (stdin : List Text) (v : Verification)

/-- How a transaction ends before its cleanup. -/
def endOf : EStateM.Result TransStop TransState Unit :=
  (execTransaction host args conf repos fuel info).run (.start fs stdin v)

/-- The transaction comes to its cleanup. -/
def Cleans : Prop := ∀ stop t, endOf host args conf repos fuel info fs stdin v = .error stop t →
  stop ≠ .running ∧ stop ≠ .nullPointer

/-- The cleanup runs on the state before it, or the transaction does not come to it. -/
theorem finalOf_eq :
    finalOf host args conf repos fuel info fs stdin v =
        rpmCleanupTS args conf (finalState (endOf host args conf repos fuel info fs stdin v)) ∨
      finalOf host args conf repos fuel info fs stdin v =
        finalState (endOf host args conf repos fuel info fs stdin v) ∧
        ¬ Cleans host args conf repos fuel info fs stdin v := by
  cases hend : endOf host args conf repos fuel info fs stdin v with
  | ok a t =>
      left
      rw [finalOf, rpmExecTransaction, run_bind_ok (run_attempt_ok hend)]
      rfl
  | error stop t =>
      rw [finalOf, rpmExecTransaction, run_bind_ok (run_attempt_error hend)]
      by_cases hstop : stop ≠ .running ∧ stop ≠ .nullPointer
      · left
        simp only [if_pos hstop]
        rfl
      · right
        simp only [if_neg hstop]
        exact ⟨rfl, fun hcleans => hstop (hcleans stop t hend)⟩

/-- The cleanup of a transaction, however that ends, removes the files it added from below the
cache directory, from the last to the first, up to one that cannot be removed, and changes no
other place. It removes nothing if the cache is kept or the packages are only downloaded. -/
theorem cleanup_exact :
    ∃ removed rest,
      (cachedOf conf (finalOf host args conf repos fuel info fs stdin v).accepted).filter
        (· ≠ []) = removed ++ rest ∧
      (∀ l, (finalOf host args conf repos fuel info fs stdin v).now.disk.fs.node l =
        if l ∈ removed.map locOf then none
        else (finalState (endOf host args conf repos fuel info fs stdin v)).now.disk.fs.node l) ∧
      (conf.nKeepCache = true ∨ args.nDownloadOnly = true → removed = []) ∧
      (Cleans host args conf repos fuel info fs stdin v → conf.nKeepCache = false →
        args.nDownloadOnly = false →
        (rest = [] ∨ ∃ path e, rest.head? = some path ∧
          (finalOf host args conf repos fuel info fs stdin v).now.disk.fs.unlink path = .error e) ∧
        ((∀ path ∈ cachedOf conf (finalOf host args conf repos fuel info fs stdin v).accepted,
            (finalState (endOf host args conf repos fuel info fs stdin v)).now.disk.fs.Reaches
              path ∧ ∃ size, (finalState (endOf host args conf repos fuel info fs stdin
                v)).now.disk.fs.node (locOf path) = some (.file size)) →
          ((cachedOf conf (finalOf host args conf repos fuel info fs stdin v).accepted).map
            locOf).Nodup → rest = [])) := by
  have houtcome := outcome_finalOf host args conf repos fuel info fs stdin v
  have hlist : ∀ paths : List Text, paths.filter (· ≠ []) = [] ++ paths.filter (· ≠ []) :=
    fun _ => rfl
  obtain heq | ⟨heq, hnot⟩ := finalOf_eq host args conf repos fuel info fs stdin v
  · generalize finalState (endOf host args conf repos fuel info fs stdin v) = u at heq
    rw [heq] at houtcome ⊢
    rw [← houtcome.cachedRpms]
    rw [rpmCleanupTS]
    by_cases hclean : (!conf.nKeepCache && !args.nDownloadOnly) = true
    · rw [if_pos hclean]
      simp only [Bool.and_eq_true, Bool.not_eq_true'] at hclean
      obtain ⟨removed, rest, hsplit, hnode, hstop, hall⟩ :=
        removeCachedRpms_spec u.cachedRpms u.now.disk
      refine ⟨removed, rest, hsplit, hnode, fun hkeep => ?_, fun _ _ _ => ⟨hstop, hall⟩⟩
      simp [hclean.1, hclean.2] at hkeep
    · rw [if_neg hclean]
      refine ⟨[], _, hlist _, by simp, fun _ => rfl, fun _ hkeep hdown => ?_⟩
      simp [hkeep, hdown] at hclean
  · rw [heq]
    exact ⟨[], _, hlist _, by simp, fun _ => rfl, fun hcleans => absurd hcleans hnot⟩

end Cleanup

end Tdnf.Client.RpmTrans
