import Tdnf.Client.RepoSync
import Tdnf.Library.Evolution

/-!
# The markers of the downloaded packages

A download leaves alone what it does not write: the package file and a temporary
file. So the marker of a package is still there when the loop over the packages
ends, and the delete pass finds it if no directory is walked over twice.
-/

namespace Tdnf.Client.RepoSync

open Procedure PathText FileTree FileTree.Tree Common Chain Evolution

/-! ## What downloading leaves alone -/

/-- Directories stay, and apart from some free places nothing is lost and no file is new. -/
structure Steady (free : Loc → Prop) (s u : Disk) : Prop where
  dirs : ∀ l, s.fs.node l = some .dir → u.fs.node l = some .dir
  kept : ∀ l, ¬ free l → s.fs.node l ≠ none → u.fs.node l ≠ none
  old : ∀ l, ¬ free l → IsFile u l → IsFile s l

section Steady

variable {free free' : Loc → Prop} {s u v : Disk}

instance : Std.Refl (Steady free) := ⟨fun _ => ⟨fun _ => id, fun _ _ => id, fun _ _ => id⟩⟩

instance : IsTrans Disk (Steady free) where
  trans _ _ _ h h' :=
    ⟨fun l hl => h'.dirs l (h.dirs l hl), fun l hl hs => h'.kept l hl (h.kept l hl hs),
      fun l hl hv => h.old l hl (h'.old l hl hv)⟩

theorem steady_of_node_eq (hdirs : ∀ l, s.fs.node l = some .dir → u.fs.node l = some .dir)
    (h : ∀ l, ¬ free l → u.fs.node l = s.fs.node l) : Steady free s u := by
  refine ⟨hdirs, fun l hl hs => ?_, fun l hl hu => ?_⟩
  · rwa [h l hl]
  · rwa [IsFile, ← h l hl]

/-- A free place at which there is a directory is not free. -/
theorem Steady.close (h : Steady free s u)
    (hfree : ∀ l, free l → s.fs.node l = some .dir ∨ free' l) : Steady free' s u := by
  refine ⟨h.dirs, fun l hl hs => ?_, fun l hl hu => ?_⟩
  · by_cases hl' : free l
    · rw [h.dirs l ((hfree l hl').resolve_right hl)]
      simp
    · exact h.kept l hl' hs
  · by_cases hl' : free l
    · obtain ⟨size, hsize⟩ := hu
      rw [h.dirs l ((hfree l hl').resolve_right hl)] at hsize
      cases hsize
    · exact h.old l hl' hu

theorem steady_unlink {p : Text} (hp : free (locOf p)) (s : Disk) :
    Steady free s (s.unlink p) := by
  refine steady_of_node_eq (unlink_extends p s).keptDirs fun l hl => ?_
  simp only [Disk.unlink]
  cases hunlink : s.fs.unlink p with
  | error e => rfl
  | ok fs => exact unlink_node hunlink fun h => hl (h ▸ hp)

end Steady

section Downloads

variable {free : Loc → Prop}

theorem evolves_makeDir (dir : Text) : Evolves (Steady free) (makeDir dir) := by
  refine evolves_of_wp fun s => ?_
  simp only [makeDir, wp_bind, wp_ite, wp_throw, wp_get]
  refine ⟨fun _ => refl_of _ s, fun _ => ?_⟩
  cases hmkdir : s.fs.mkdir dir with
  | ok made =>
      obtain ⟨loc, fs⟩ := made
      obtain ⟨-, hnode⟩ := mkdir_ok hmkdir
      refine ⟨fun l hl => ?_, fun l _ hl => ?_, fun l _ hl => ?_⟩
      · change fs.node l = _
        rw [hnode, hl, ite_self]
      · change fs.node l ≠ none
        rw [hnode]
        split
        · simp
        · exact hl
      · obtain ⟨size, hsize⟩ := hl
        change fs.node l = _ at hsize
        rw [hnode] at hsize
        split at hsize
        · cases hsize
        · exact ⟨size, hsize⟩
  | error e =>
      have hsame : Steady free s s := refl_of _ s
      cases e <;> exact hsame

theorem evolves_makeDirs (path : Text) : Evolves (Steady free) (makeDirs path) := by
  have hloop (path : Text) : Evolves (Steady free) ((dirPrefixes [] path).forM makeDir) :=
    Evolves.forM evolves_makeDir _
  refine Evolves.ite _ (evolves_throw _) (Evolves.bind evolves_get fun s => ?_)
  cases s.fs.access path with
  | ok found => exact (evolves_throw _).bind fun _ => hloop _
  | error e =>
      cases e with
      | noent => exact hloop _
      | _ => exact (evolves_throw _).bind fun _ => hloop _

theorem evolves_receive {file : Text} (hfile : free (locOf file)) (size : ℕ) :
    Evolves (Steady free) (receive file size) := by
  refine evolves_of_wp fun s => wp_mono (receive_spec file size s) ?_ ?_
  · rintro - u ⟨hreceived, hnode⟩
    refine steady_of_node_eq hreceived.2.2.keptDirs fun l hl => ?_
    rw [hnode, if_neg]
    rintro rfl
    exact hl hfile
  · rintro - u ⟨rfl, -⟩
    exact refl_of _ u

theorem evolves_attempts {fileTmp : Text} (htmp : free (locOf fileTmp)) (perform : ℕ → Perform)
    (retries i : ℕ) : Evolves (Steady free) (attempts perform fileTmp retries i) := by
  induction retries generalizing i with
  | zero =>
      refine (evolves_receive htmp _).bind fun _ => ?_
      exact Evolves.ite _ (evolves_throw _) (evolves_pure _)
  | succ retries ih =>
      refine (evolves_receive htmp _).bind fun _ => ?_
      refine Evolves.ite _ ?_ (evolves_pure _)
      exact Evolves.ite _ (evolves_throw _) (ih (i + 1))

theorem evolves_renameFile {old new : Text} (hold : free (locOf old)) (hnew : free (locOf new)) :
    Evolves (Steady free) (renameFile old new) := by
  refine evolves_of_wp fun s => ?_
  simp only [renameFile, wp_bind, wp_get, wp_bailErrno]
  refine ⟨?_, fun _ _ => refl_of _ s⟩
  rintro ⟨loc, fs⟩ hrename
  refine steady_of_node_eq (rename_ok hrename).2.2.2 fun l hl => rename_node hrename ?_ ?_
  · rintro rfl
    exact hl hold
  · rintro rfl
    exact hl hnew

/-- A download writes the file and the temporary file. -/
theorem evolves_downloadFile {file : Text} (hfile : ∀ l ∈ filesOf file, free l)
    (pRepo : RepoData) (t : Transfer) (fileUrl : Text) :
    Evolves (Steady free) (downloadFile pRepo t fileUrl file) := by
  have htmp : free (locOf (tmpOf file)) := hfile _ (by simp [filesOf])
  have hnew : free (locOf file) := hfile _ (by simp [filesOf])
  refine Evolves.ite _ (evolves_throw _) ?_
  cases t.setup with
  | some e => exact ⟨fun s => refl_of _ s⟩
  | none =>
      refine Evolves.finishing (fun s => refl_of _ s) (steady_unlink htmp) ?_
      refine (evolves_attempts htmp _ _ _).bind fun _ => ?_
      cases t.status with
      | error code => exact evolves_throw _
      | ok status =>
          refine Evolves.ite _ (evolves_throw _) ((evolves_renameFile htmp hnew).bind fun _ => ?_)
          cases t.chmod with
          | some errno => exact evolves_throw _
          | none => exact evolves_pure _

theorem evolves_tryBaseUrls {file : Text} (hfile : ∀ l ∈ filesOf file, free l)
    (pRepo : RepoData) (net : ℕ → Transfer) (location : Text) (i : ℕ) (urls : List Text) :
    Evolves (Steady free) (tryBaseUrls pRepo net location file i urls) := by
  induction urls generalizing i with
  | nil => exact evolves_pure ()
  | cons url urls ih =>
      cases urls with
      | nil => exact evolves_downloadFile hfile pRepo (net i) _
      | cons url' urls => exact (evolves_downloadFile hfile pRepo (net i) _).orElse (ih (i + 1))

theorem evolves_downloadPackage {dir location : Text}
    (hfile : ∀ l ∈ filesOf (joinPath [dir, basename location]), free l) (pRepo : RepoData)
    (net : ℕ → Transfer) (nSize : ℤ) (pkgName : Text) :
    Evolves (Steady free) (downloadPackage pRepo net nSize location pkgName dir) := by
  have hdownload : Evolves (Steady free)
      (downloadFileFromRepo pRepo net location (joinPath [dir, basename location])) := by
    refine Evolves.ite _ (evolves_throw _) (Evolves.ite _ ?_ ?_)
    · exact evolves_downloadFile hfile pRepo (net 0) location
    · exact evolves_tryBaseUrls hfile pRepo net location 0 pRepo.ppszBaseUrls
  refine Evolves.ite _ (evolves_throw _) (Evolves.bind evolves_get fun s => ?_)
  refine Evolves.ite _ hdownload ?_
  split
  · exact evolves_throw _
  · exact evolves_pure ()

end Downloads

/-- The name of a temporary file. -/
def IsTmp (l : Loc) : Prop := ∃ name d, l = name :: d ∧ ".tmp".toList <:+ name.val

theorem isTmp_tmpOf (file : Text) : IsTmp (locOf (tmpOf file)) :=
  ⟨_, _, locOf_append file (by decide) (by decide), List.suffix_append _ _⟩

theorem IsRpm.not_isTmp {l : Loc} (h : IsRpm l) : ¬ IsTmp l := by
  rintro ⟨name, d, rfl, htmp⟩
  obtain ⟨name', d', hl, hrpm⟩ := h
  obtain ⟨rfl, -⟩ := List.cons.inj hl
  exact absurd (List.suffix_of_suffix_length_le hrpm htmp (by decide)) (by decide)

theorem not_isTmp_keepOf (l : Loc) : ¬ IsTmp (keepOf l) := by
  rintro ⟨name, d, hl, htmp⟩
  cases l with
  | nil => cases hl
  | cons name' d' =>
      obtain ⟨rfl, -⟩ := List.cons.inj hl
      have hkeep := List.suffix_append name'.val ".reposync-keep".toList
      exact absurd (List.suffix_of_suffix_length_le htmp hkeep (by decide)) (by decide)

theorem evolves_ifMissing {free : Loc → Prop} {p : Text} {x : Call Unit}
    (hx : Evolves (Steady free) x) : Evolves (Steady free) (ifMissing p x) := by
  refine evolves_of_wp fun s => ?_
  rw [wp_ifMissing]
  exact ⟨fun _ => refl_of _ s, fun _ => hx.wp, fun _ _ _ => refl_of _ s⟩

/-- A package that is downloaded into a directory goes to the place of its location and to a
temporary file. -/
theorem downloadPackageToTree_steady (pRepo : RepoData) (net : ℕ → Transfer) (nSize : ℤ) {c : Loc}
    {location pkgName : Text} {s : Disk} (hc : s.fs.node c ≠ none) :
    wp (downloadPackageToTree pRepo net nSize location pkgName (render c))
      (fun path u => ∃ n, normalFrom c (moves (treePath location)) = some n ∧ path = render n ∧
        Steady (fun l => l = n ∨ IsTmp l) s u ∧ u.fs.node n.tail = some .dir)
      (fun _ _ => True) s := by
  by_cases harg : location = [] ∨ pkgName = []
  · have harg' : location = [] ∨ pkgName = [] ∨ render c = [] := harg.imp_right .inl
    simp only [downloadPackageToTree, harg', if_true, wp_bind, wp_throw]
  · obtain ⟨hlocation, hpkg⟩ := not_or.mp harg
    apply wp_downloadPackageToTree hlocation hpkg (fun _ _ => trivial)
    intro n hn hfile hstarts
    have hparent : Evolves (Steady fun _ => False)
        (ifMissing (render n.tail) (makeDirs (render n.tail))) :=
      evolves_ifMissing (evolves_makeDirs _)
    refine wp_mono (wp_and (parentDir_spec n.tail hfile) hparent.wp) ?_ fun _ _ _ => trivial
    rintro - u ⟨⟨-, hdir⟩, hmade⟩
    rw [wp_ifMissing]
    refine ⟨fun _ => ⟨n, hn, rfl, hmade.close fun _ => False.elim, hdir⟩, fun haccess => ?_,
      fun _ _ _ => trivial⟩
    have hnone : u.fs.node n = none := by
      by_contra hne
      obtain ⟨x, hx⟩ := Option.ne_none_iff_exists'.mp hne
      rw [access_render hx] at haccess
      cases haccess
    have htail : ∀ file, ∀ l ∈ filesOf file, l = locOf file ∨ IsTmp l := by
      intro file l hl
      simp only [filesOf, List.mem_cons, List.not_mem_nil, or_false] at hl
      obtain rfl | rfl := hl
      · exact .inr (isTmp_tmpOf file)
      · exact .inl rfl
    have hdownload := evolves_downloadPackage (htail (joinPath [render n.tail, basename location]))
      pRepo net nSize pkgName
    refine wp_mono hdownload.wp (fun _ v hv => ⟨n, hn, rfl, ?_, hv.dirs _ hdir⟩)
      fun _ _ _ => trivial
    refine trans_of _ (hmade.close fun _ => False.elim) (hv.close ?_)
    rintro l (rfl | htmp)
    · by_cases hname : IsName (basename location)
      · have hmoves : moves (treePath location) ≠ [] := by
          intro hnil
          rw [hnil] at hn
          obtain rfl : c = n := Option.some.inj hn
          exact hmade.kept c id hc hnone
        obtain ⟨a, ha⟩ := treePath_last hname hmoves
        rw [ha] at hn
        obtain ⟨d, rfl⟩ := normalFrom_down hn
        exact .inr (.inl (locOf_join_name d ⟨basename location, hname⟩))
      · -- a base name that is no name leads to a directory
        have hstat := stat_base hdir hname
        have heq := (reaches_of_stat hstat).stat_eq
        rw [hstat] at heq
        cases hnode : u.fs.node (locOf (joinPath [render n.tail, basename location])) with
        | none =>
            rw [hnode] at heq
            cases heq
        | some x =>
            rw [hnode] at heq
            cases heq
            exact .inl rfl
    · exact .inr (.inr htmp)

/-! ## The loop over the packages -/

/-- The package files at some places that are there have their markers. -/
def Marked (D : Loc → Prop) (s : Disk) : Prop :=
  ∀ l, D l → IsRpm l → IsFile s l → s.fs.node (keepOf l) ≠ none

theorem Marked.of_steady {D free : Loc → Prop} {s u : Disk} (h : Marked D s)
    (hsteady : Steady free s u) (hkeep : ∀ l, IsRpm l → ¬ free (keepOf l)) :
    Marked (fun l => D l ∧ ¬ free l) u := by
  rintro l ⟨hl, hnot⟩ hrpm hfile
  exact hsteady.kept _ (hkeep l hrpm) (h l hl hrpm (hsteady.old l hnot hfile))

theorem touchFile_spec (file : Text) (s : Disk) :
    wp (touchFile file) (fun _ u => u.fs.node (locOf file) ≠ none ∧
        ∀ l, l ≠ locOf file → u.fs.node l = s.fs.node l) (fun _ _ => True) s := by
  simp only [touchFile, wp_bind, wp_ite, wp_throw, wp_get]
  refine ⟨fun _ => trivial, fun _ => ?_⟩
  cases hwrite : s.fs.write file 0 with
  | ok written =>
      obtain ⟨loc, fs⟩ := written
      obtain ⟨-, -, hnode⟩ := write_ok hwrite
      refine ⟨?_, fun l hl => ?_⟩
      · change fs.node _ ≠ none
        simp [hnode]
      · exact (hnode l).trans (if_neg hl)
  | error e =>
      by_cases he : e = .exist
      · exact absurd he (write_error hwrite)
      · cases e <;> trivial

theorem isRpm_render {l : Loc} (h : IsRpm l) : isRpm (render l) = true := by
  obtain ⟨name, d, rfl, hname⟩ := h
  rw [isRpm_iff, render_cons]
  exact hname.trans ((List.suffix_cons '/' name.val).trans (List.suffix_append (body d) _))

theorem not_isRpm_locOf_keepFile (file : Text) : ¬ IsRpm (locOf (keepFile file)) := by
  rintro ⟨name, d, hl, hrpm⟩
  rw [keepFile, locOf_append file (by decide) (by decide)] at hl
  obtain ⟨rfl, -⟩ := List.cons.inj hl
  have hkeep := List.suffix_append (lastPiece file) ".reposync-keep".toList
  exact absurd (List.suffix_of_suffix_length_le hrpm hkeep (by decide)) (by decide)

/-- A package file gets its marker, or it is removed. -/
theorem touchFile_marks {D : Loc → Prop} {n : Loc} {s : Disk}
    (h : Marked (fun l => D l ∧ l ≠ n) s) :
    wp (touchFile (keepFile (render n))) (fun _ u => Marked (fun l => D l ∨ l = n) u)
      (fun _ _ => True) s := by
  refine wp_mono (touchFile_spec _ s) (fun _ u hu => ?_) fun _ _ => id
  obtain ⟨hkeep, hsame⟩ := hu
  intro l hl hrpm hfile
  by_cases hn : l = n
  · subst hn
    rwa [(locOf_rpm (isRpm_render hrpm)).2, locOf_render] at hkeep
  · by_cases hplace : keepOf l = locOf (keepFile (render n))
    · rwa [hplace]
    · have hne : l ≠ locOf (keepFile (render n)) := by
        rintro rfl
        exact not_isRpm_locOf_keepFile _ hrpm
      obtain ⟨size, hsize⟩ := hfile
      rw [hsame l hne] at hsize
      rw [hsame _ hplace]
      exact h l ⟨hl.resolve_right hn, hn⟩ hrpm ⟨size, hsize⟩

theorem unlink_marks {D : Loc → Prop} {n : Loc} {s : Disk} (htail : s.fs.node n.tail = some .dir)
    (hn : ∀ l, IsRpm l → keepOf l ≠ n) (h : Marked (fun l => D l ∧ l ≠ n) s) :
    Marked (fun l => D l ∨ l = n) (s.unlink (render n)) := by
  have hlose := unlink_loses (reaches_render htail)
  rw [locOf_render] at hlose
  intro l hl hrpm hfile
  obtain ⟨hold, hne⟩ := hlose.isFile_iff.mp hfile
  rw [(hlose (keepOf l)).2 fun hlost => hn l hrpm hlost.2]
  exact h l ⟨hl.resolve_right hne, hne⟩ hrpm hold

section Loop

variable {host : Host} {args : RepoSyncArgs} {repos : List SyncRepo} {pPkgInfos : List PkgInfo}
  {c : Loc}

/-- What keeps the markers safe: URLs are not only printed, every repository has a directory of
its own, no package file is named like a marker, and signatures are checked without fetching
keys. -/
structure Plain (host : Host) (args : RepoSyncArgs) (repos : List SyncRepo) (pszRootPath : Text)
    (pPkgInfos : List PkgInfo) : Prop where
  urls : args.nPrintUrlsOnly = false
  names : ∀ repo ∈ repos, IsName repo.pszId
  distinct : ((enabledRepos repos).map fun repo => repo.pszId).Nodup
  markers : ∀ l, IsRpm l → ¬ OfSelected args pszRootPath pPkgInfos (keepOf l)
  checks : args.nGPGCheck = true → ∀ repo path s,
    (finalState ((host.gpgCheckPackage repo path).run s)).fs = s.fs

theorem checkAndMark_marks (hplain : Plain host args repos (render c) pPkgInfos)
    (hdelete : args.nDelete = true) {D : Loc → Prop} {n : Loc} {s : Disk} (pRepo : SyncRepo)
    (htail : s.fs.node n.tail = some .dir) (hn : ∀ l, IsRpm l → keepOf l ≠ n)
    (h : Marked (fun l => D l ∧ l ≠ n) s) :
    wp (checkAndMark host args pRepo (render n)) (fun _ u => Marked (fun l => D l ∨ l = n) u)
      (fun _ _ => True) s := by
  have hcheck : wp (checkSignature host args pRepo (render n)) (fun _ u => u.fs = s.fs)
      (fun _ _ => True) s := by
    rw [checkSignature, wp_ite]
    refine ⟨fun hgpg => ?_, fun _ => rfl⟩
    have hfinal := hplain.checks hgpg pRepo (render n) s
    simp only [wp]
    cases hrun : (host.gpgCheckPackage pRepo (render n)).run s with
    | ok signature u => simpa only [hrun, finalState] using hfinal
    | error e u => trivial
  rw [checkAndMark, wp_bind]
  refine wp_mono hcheck (fun signature u hu => ?_) fun _ _ => id
  have hmarked : Marked (fun l => D l ∧ l ≠ n) u := by
    intro l hl hrpm hfile
    rw [hu]
    rw [IsFile, hu] at hfile
    exact h l hl hrpm hfile
  cases signature with
  | failed e => trivial
  | untrusted =>
      rw [wp_modify]
      exact unlink_marks (hu ▸ htail) hn hmarked
  | good =>
      simp only [hdelete, if_true]
      exact touchFile_marks hmarked

theorem repoDir_render (c : Loc) (name : Name) :
    repoDir (render c) name.val = render (name :: c) := by
  cases c with
  | nil =>
      rw [repoDir, render_nil, if_pos rfl, joinPath]
      change joinNodes [[], name.val] = _
      rw [joinNodes, joinNodes, strip_name]
      · rfl
      · exact List.cons_ne_nil _ _
  | cons name' d =>
      have hne : render (name' :: d) ≠ ['/'] := fun h =>
        List.cons_ne_nil name' d (render_injective h)
      rw [repoDir, if_neg hne, joinPath_name (List.cons_ne_nil name' d)]

theorem findRepoById_ok {pszRepo : Text} {repo : SyncRepo}
    (h : findRepoById repos pszRepo = .ok repo) : repo ∈ repos ∧ repo.pszId = pszRepo := by
  rw [findRepoById] at h
  split at h
  · cases h
  · split at h
    · cases h
    · split at h
      · cases h
      · rename_i hfind
        cases h
        exact ⟨List.mem_of_find?_eq_some hfind, by simpa using List.find?_some hfind⟩

/-- A round of the loop marks the file of its package. -/
theorem syncPackage_marks (hplain : Plain host args repos (render c) pPkgInfos)
    (hdelete : args.nDelete = true) (hpath : args.nNoRepoPath = false) {pkg : PkgInfo}
    (hpkg : pkg ∈ pPkgInfos) {D : Loc → Prop} {s : Disk} (h : Marked D s) :
    wp (syncPackage host args repos (render c) pkg)
      (fun _ u => Marked
        (fun l => D l ∨ selected args pkg = true ∧ fileOf args (render c) pkg = some l) u)
      (fun _ _ => True) s := by
  by_cases hselected : selected args pkg = true
  · simp only [syncPackage, hselected, if_true, hplain.urls, Bool.false_eq_true, if_false, wp_bind,
      true_and]
    have hmade : Evolves (Steady fun _ => False) (makeDir (packageDir args (render c) pkg)) :=
      evolves_makeDir _
    refine wp_mono (wp_and hmade.wp (makeDir_spec _ s)) ?_ fun _ _ _ => trivial
    rintro - u ⟨hsteady, -, hdir⟩
    rw [wp_fromExcept]
    refine ⟨fun repo hrepo => ?_, fun _ _ => trivial⟩
    obtain ⟨hmem, hid⟩ := findRepoById_ok hrepo
    have hname : IsName pkg.pszRepoName := hid ▸ hplain.names repo hmem
    have hpackageDir : packageDir args (render c) pkg =
        render (⟨pkg.pszRepoName, hname⟩ :: c) := by
      rw [packageDir, hpath, ← repoDir_render]
      rfl
    rw [hpackageDir, locOf_render] at hdir
    rw [hpackageDir]
    refine wp_mono (downloadPackageToTree_steady _ _ _ hdir) ?_ fun _ _ => id
    rintro - v ⟨n, hn, rfl, hdownload, htail⟩
    have hfile : fileOf args (render c) pkg = some n := by
      rw [fileOf, hpackageDir, normalFrom_join, hn]
    have hkeep : ∀ l, IsRpm l → keepOf l ≠ n := by
      rintro l hrpm rfl
      exact hplain.markers l hrpm ⟨pkg, hpkg, hselected, hfile⟩
    have hmarked := (h.of_steady hsteady fun _ _ => id).of_steady hdownload
      fun l hrpm hfree => hfree.elim (hkeep l hrpm) (not_isTmp_keepOf l)
    have hothers : Marked (fun l => D l ∧ l ≠ n) v := fun l hl hrpm =>
      hmarked l ⟨⟨hl.1, id⟩, fun hfree => hfree.elim hl.2 hrpm.not_isTmp⟩ hrpm
    refine wp_mono (checkAndMark_marks hplain hdelete repo htail hkeep hothers) ?_ fun _ _ => id
    intro _ w hw l hl
    rw [hfile, Option.some.injEq] at hl
    exact hw l (hl.imp_right Eq.symm)
  · simp only [syncPackage, hselected, Bool.false_eq_true, if_false, wp_pure, false_and, or_false]
    exact h

/-- After the loop the package files that it came to have their markers. -/
theorem forM_syncPackage_marks (hplain : Plain host args repos (render c) pPkgInfos)
    (hdelete : args.nDelete = true) (hpath : args.nNoRepoPath = false) {rest : List PkgInfo}
    (hrest : ∀ pkg ∈ rest, pkg ∈ pPkgInfos) {D : Loc → Prop} {s : Disk} (h : Marked D s) :
    wp (rest.forM (syncPackage host args repos (render c)))
      (fun _ u => Marked (fun l => D l ∨ OfSelected args (render c) rest l) u)
      (fun _ _ => True) s := by
  induction rest generalizing D s with
  | nil =>
      intro l hl
      refine h l (hl.resolve_right ?_)
      rintro ⟨pkg, hpkg, -⟩
      cases hpkg
  | cons pkg rest ih =>
      obtain ⟨hpkg, hrest⟩ := List.forall_mem_cons.mp hrest
      rw [List.forM, wp_bind]
      refine wp_mono (syncPackage_marks hplain hdelete hpath hpkg h) (fun _ u hu => ?_)
        fun _ _ => id
      refine wp_mono (ih hrest hu) (fun _ v hv l hl => hv l ?_) fun _ _ => id
      obtain hl | ⟨pkg', hmem, hl⟩ := hl
      · exact .inl (.inl hl)
      · obtain rfl | hmem := List.mem_cons.mp hmem
        · exact .inl (.inr hl)
        · exact .inr ⟨pkg', hmem, hl⟩

end Loop

section Runs

variable {host : Host} {args : RepoSyncArgs} {repos : List SyncRepo} {pPkgInfos : List PkgInfo}
  {start s t : Disk} {pszRootPath : Text}

theorem rootPath_render (h : (rootPath host args).run start = .ok pszRootPath s) :
    ∃ c, pszRootPath = render c := by
  rw [rootPath] at h
  split at h
  · split at h
    · rename_i cwd hcwd
      cases h
      exact ⟨cwd, rfl⟩
    · cases h
  · rename_i path hpath
    rw [run_get_bind, run_fromExcept_eq_ok] at h
    obtain ⟨n, -, hn, -⟩ := normalizePath_ok h.1
    exact ⟨n, hn⟩

theorem checkArgs_ok (h : checkArgs args repos = .ok ()) (hdelete : args.nDelete = true) :
    args.nNoRepoPath = false := by
  by_contra hpath
  rw [Bool.not_eq_false] at hpath
  simp only [checkArgs, hdelete, hpath, and_self, and_true, if_true] at h
  split at h
  · cases h
  · cases h

/-- When the loop over the packages has ended, the files of the selected packages have their
markers. -/
theorem download_marks (h : (download host args repos pPkgInfos).run start = .ok pszRootPath s)
    (hplain : Plain host args repos pszRootPath pPkgInfos) (hdelete : args.nDelete = true) :
    Marked (OfSelected args pszRootPath pPkgInfos) s ∧ ∃ c, pszRootPath = render c := by
  rw [download, run_bind_eq_ok] at h
  obtain ⟨⟨⟩, s₁, hcall, h⟩ := h
  obtain ⟨hargs, rfl⟩ := run_fromExcept_eq_ok.mp hcall
  have hrest : (do
      let pszRootPath ← rootPath host args
      pPkgInfos.forM (syncPackage host args repos pszRootPath)
      return pszRootPath : Call Text).run s₁ = .ok pszRootPath s := by
    split at h
    · cases h
    · exact h
  obtain ⟨root, s₂, hroot, hrest⟩ := run_bind_eq_ok.mp hrest
  obtain ⟨⟨⟩, s₃, hloop, hrest⟩ := run_bind_eq_ok.mp hrest
  cases hrest
  obtain ⟨c, rfl⟩ := rootPath_render hroot
  have hmarked := wp_ok (forM_syncPackage_marks hplain hdelete (checkArgs_ok hargs hdelete)
    (fun _ => id) (D := fun _ => False) (s := s₂) fun l hl => hl.elim) hloop
  exact ⟨fun l hl => hmarked l (.inr hl), c, rfl⟩

/-- No two walks come to the same place if every repository has a directory of its own. -/
theorem walkDirs_apart {c : Loc} (hplain : Plain host args repos (render c) pPkgInfos) (l : Loc) :
    (walkDirs args repos (render c)).Pairwise fun d d' =>
      locOf d <:+ l → ¬ locOf d' <:+ l := by
  rw [walkDirs]
  split
  · rw [List.pairwise_map]
    have hdistinct := List.pairwise_map.mp hplain.distinct
    refine hdistinct.imp_of_mem fun {repo repo'} hrepo hrepo' hne hl hl' => hne ?_
    have hdir : ∀ repo ∈ enabledRepos repos, ∃ name : Name, name.val = repo.pszId ∧
        locOf (repoDir (render c) repo.pszId) = name :: c := by
      intro repo hrepo
      refine ⟨⟨repo.pszId, hplain.names repo (List.mem_of_mem_filter hrepo)⟩, rfl, ?_⟩
      rw [← locOf_render (_ :: c), ← repoDir_render]
    obtain ⟨name, hid, hloc⟩ := hdir repo hrepo
    obtain ⟨name', hid', hloc'⟩ := hdir repo' hrepo'
    rw [hloc] at hl
    rw [hloc'] at hl'
    have hsuffix := List.suffix_of_suffix_length_le hl hl' (by simp)
    obtain ⟨hname, -⟩ := List.cons.inj (hsuffix.eq_of_length (by simp))
    rw [← hid, ← hid', hname]
  · exact List.Pairwise.nil

/-- The walks of a plain run start carefully. -/
theorem Plain.careful (hplain : Plain host args repos pszRootPath pPkgInfos)
    (h : (download host args repos pPkgInfos).run start = .ok pszRootPath s)
    (hlist : Listed host (walkDirs args repos pszRootPath) s) {dir : Text}
    (hwalk : WalkFrom host (walkDirs args repos pszRootPath) s dir t) :
    Careful args pszRootPath pPkgInfos t dir := by
  have hdelete : args.nDelete = true := by
    have hmem := hwalk.mem
    rw [walkDirs] at hmem
    split at hmem
    · assumption
    · cases hmem
  obtain ⟨hmarked, c, rfl⟩ := download_marks h hplain hdelete
  refine ⟨fun l hfound hfile hstays => ?_, fun l hfound _ => hplain.markers l hfound.isRpm⟩
  obtain ⟨hnode, hkeep⟩ := hwalk.apart hlist hfound.isRpm hfound.below (walkDirs_apart hplain l)
  rw [hkeep]
  refine hmarked l (hstays.resolve_left ?_) hfound.isRpm ?_
  · rw [hplain.urls]
    exact Bool.false_ne_true
  · rwa [IsFile, ← hnode]

theorem finalState_repoSync {h : Heap PkgInfo} {p : Option ℕ}
    (hrun : (download host args repos (loopPackages host args h p)).run start =
      .ok pszRootPath s) :
    finalState ((repoSync host args repos h p).run start) =
      finalState ((deletePass host args repos pszRootPath).run s) := by
  have hpass := run_bind_ok (f := deletePass host args repos) hrun
  simp only [repoSync, mapFault, EStateM.run] at hpass ⊢
  rw [hpass]
  cases deletePass host args repos pszRootPath s with
  | ok a t => rfl
  | error e t => rfl

end Runs

/-! ## Printing URLs -/

section Printing

def workDir : Loc := [⟨"d".toList, by decide⟩]

def syncDir : Loc := ⟨"r".toList, by decide⟩ :: workDir

def packageName : Name := ⟨"x.rpm".toList, by decide⟩

/-- A disk with one package in the directory of the repository. -/
def syncedDisk : Disk :=
  Disk.start ((skeleton [syncDir]).put
    ⟨packageName :: syncDir, skeleton_of_mem List.mem_cons_self⟩ (.file 1) (by
      rw [ne_eq, skeleton_dir]
      decide))

def printingHost : Host where
  getcwd := .ok workDir
  rpmtsCreate := true
  net _ _ := goodTransfer
  nSize _ := 0
  gpgCheckPackage _ _ := pure .good
  createPackageUrl _ := .ok "http://host/x.rpm".toList
  evrcmp := strcmp
  qsort := insertionQsort
  ftw _ _ := [[packageName], []]

/-- URLs are to be printed, and what is not selected deleted. -/
def printingArgs : RepoSyncArgs := ⟨true, false, false, true, false, false, none, none⟩

def syncRepo : SyncRepo where
  pszId := "r".toList
  pszCacheName := none
  ppszBaseUrls := ["http://host".toList]
  nRetries := 0
  pszName := "r".toList
  nEnabled := true

theorem node_syncedDisk (l : Loc) : syncedDisk.fs.node l =
    if l = packageName :: syncDir then some (.file 1) else (skeleton [syncDir]).node l := rfl

theorem syncedDisk_node {names : Loc} :
    syncedDisk.fs.node (names ++ syncDir) ≠ none ↔ names = [packageName] ∨ names = [] := by
  have hplace : names ++ syncDir = packageName :: syncDir ↔ names = [packageName] := by
    change names ++ syncDir = [packageName] ++ syncDir ↔ _
    exact List.append_left_inj syncDir
  rw [node_syncedDisk]
  split
  · rename_i hl
    simp [hplace.mp hl]
  · rename_i hl
    rw [hplace] at hl
    constructor
    · intro hnode
      by_contra hnot
      refine hnode (skeleton_none ?_)
      rw [ne_eq, skeleton_dir]
      rintro (hroot | ⟨d, hd, hsuffix⟩)
      · exact absurd (List.append_eq_nil_iff.mp hroot).2 (by decide)
      · rw [List.mem_singleton.mp hd] at hsuffix
        have hlength := hsuffix.length_le
        rw [List.length_append] at hlength
        exact hnot (.inr (List.length_eq_zero_iff.mp (by omega)))
    · rintro (h | rfl)
      · exact absurd h hl
      · rw [List.nil_append, skeleton_of_mem List.mem_cons_self]
        simp

theorem walkDirs_syncRepo {args : RepoSyncArgs} (h : args.nDelete = true) :
    walkDirs args [syncRepo] (render workDir) = [render syncDir] := by
  rw [walkDirs, if_pos h]
  rfl

/-- The walk over the directory finds the package and the directory itself. -/
theorem listed_syncedDisk {args : RepoSyncArgs} (h : args.nDelete = true) :
    Listed printingHost (walkDirs args [syncRepo] (render workDir)) syncedDisk := by
  rw [walkDirs_syncRepo h]
  intro dir t hwalk
  cases hwalk with
  | here =>
      refine ⟨by decide, fun names => ?_⟩
      rw [locOf_render, syncedDisk_node]
      change names ∈ [[packageName], []] ↔ _
      simp
  | later hrun hrest => cases hrest

end Printing

end Tdnf.Client.RepoSync
