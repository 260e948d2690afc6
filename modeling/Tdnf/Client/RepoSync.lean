import Tdnf.Client.Containment
import Tdnf.Client.FilterNewest

/-!
# Deleting what a synchronisation did not download

`TDNFRepoSync` downloads the selected packages of every repository into a
directory of its own and touches a marker file beside each. The delete pass then
walks over the directories: it removes the `*.rpm` files without a marker, and the
markers of the others. The theorem says when the files of the selected packages
survive the walks.
-/

namespace Tdnf.Client.RepoSync

open Procedure PathText FileTree FileTree.Tree Common Chain

/-- `TDNF_REPOSYNC_ARGS`, without the options of the metadata -/
structure RepoSyncArgs where
  nDelete : Bool
  nGPGCheck : Bool
  nNewestOnly : Bool
  nPrintUrlsOnly : Bool
  nNoRepoPath : Bool
  nSourceOnly : Bool
  pszDownloadPath : Option Text
  ppszArchs : Option (List Text)

/-- The parts of `TDNF_REPO_DATA` that synchronising reads. -/
structure SyncRepo extends RepoData where
  pszName : Text
  nEnabled : Bool

/-- How `TDNFGPGCheckPackage` ends. -/
inductive Signature where
  | good
  /-- `RPMRC_NOTTRUSTED` or `RPMRC_NOKEY` -/
  | untrusted
  | failed (e : TdnfError)

/-- What happens outside of the code. -/
structure Host where
  /-- the working directory, or the `errno` of `getcwd` -/
  getcwd : Except ℕ Loc
  /-- `rpmtsCreate` succeeds -/
  rpmtsCreate : Bool
  /-- the transfers of a package -/
  net : PkgInfo → ℕ → Transfer
  /-- the size of a package file before anything is stored in the variable -/
  nSize : PkgInfo → ℤ
  /-- the signature check, with what it does to the disk -/
  gpgCheckPackage : SyncRepo → Text → Call Signature
  createPackageUrl : PkgInfo → Except TdnfError Text
  /-- `pool_evrcmp_str` -/
  evrcmp : Text → Text → ℤ
  qsort : (ℕ → ℕ → ℤ) → List ℕ → List ℕ
  /-- what `nftw` visits at and below a path: the names that lead there -/
  ftw : Tree → Text → List Loc

def cmdlineRepoName : Text := "@cmdline".toList

def systemRepoName : Text := "@System".toList

section Code

variable (host : Host) (args : RepoSyncArgs) (repos : List SyncRepo)

/-- The repositories that are counted and whose directories are walked over. -/
def enabledRepos : List SyncRepo :=
  repos.filter fun repo => repo.pszName ≠ cmdlineRepoName ∧ repo.nEnabled

/-- The combinations of options that are not accepted. -/
def checkArgs : Except TdnfError Unit := do
  if 1 < (enabledRepos repos).length ∧ args.nNoRepoPath then throw .invalidParameter
  -- prevent accidental deletion of packages
  if args.nDelete ∧ args.nNoRepoPath then throw .invalidParameter
  if args.nSourceOnly ∧ args.ppszArchs.isSome then throw .invalidParameter

/-- `TDNFStringMatchesOneOf`, for a result that is 0 before -/
def stringMatchesOneOf (pszSearch : Text) (ppszList : List Text) : Bool :=
  pszSearch ≠ [] ∧ ppszList.contains pszSearch

/-- The packages that the loop does not skip. -/
def selected (pkg : PkgInfo) : Bool :=
  if pkg.pszRepoName = systemRepoName then false
  else match args.ppszArchs with
    | some archs => stringMatchesOneOf pkg.pszArch archs
    | none => !args.nSourceOnly || pkg.pszArch = "src".toList

/-- `TDNFFindRepoById` -/
def findRepoById (pszRepo : Text) : Except TdnfError SyncRepo :=
  if pszRepo = [] then .error .invalidParameter
  else if repos = [] then .error .noRepos
  else match repos.find? fun repo => repo.pszId = pszRepo with
    | none => .error .repoNotFound
    | some repo => .ok repo

/-- The directory of a repository below the root path. -/
def repoDir (pszRootPath pszRepo : Text) : Text :=
  joinPath [if pszRootPath = ['/'] then [] else pszRootPath, pszRepo]

/-- The root path: the working directory, or what the arguments say. -/
def rootPath : Call Text := do
  match args.pszDownloadPath with
  | none =>
    match host.getcwd with
    | .ok cwd => return render cwd
    | .error errno => throw (.system errno)
  | some path => fromExcept (normalizePath (← get).fs path)

/-- `TDNFTouchFile`; `creat` does not complain of a file that is there. -/
def touchFile (file : Text) : Call Unit := do
  if file = [] then throw .invalidParameter
  let s ← get
  match s.fs.write file 0 with
  | .ok (loc, fs) => set { s with fs := fs, wrote := loc :: s.wrote }
  | .error .exist => pure ()
  | .error e => throw (.system (errnoCode e))

/-- The marker file of a package file. -/
def keepFile (file : Text) : Text := file ++ ".reposync-keep".toList

/-- The signature is checked if the arguments say so. -/
def checkSignature (pRepo : SyncRepo) (file : Text) : Call Signature :=
  if args.nGPGCheck then host.gpgCheckPackage pRepo file else pure .good

/-- What the loop does with the package file after the download. -/
def checkAndMark (pRepo : SyncRepo) (file : Text) : Call Unit := do
  match ← checkSignature host args pRepo file with
  | .failed e => throw e
  | .untrusted => modify (Disk.unlink file)
  | .good => if args.nDelete then touchFile (keepFile file)

/-- The directory that a package goes to. -/
def packageDir (pszRootPath : Text) (pkg : PkgInfo) : Text :=
  if args.nNoRepoPath then pszRootPath else repoDir pszRootPath pkg.pszRepoName

/-- One round of the loop over the packages -/
def syncPackage (pszRootPath : Text) (pkg : PkgInfo) : Call Unit := do
  if selected args pkg then
    if args.nPrintUrlsOnly then
      let _ ← fromExcept (host.createPackageUrl pkg)
    else
      let dir := packageDir args pszRootPath pkg
      makeDir dir
      let pRepo ← fromExcept (findRepoById repos pkg.pszRepoName)
      let file ← downloadPackageToTree pRepo.toRepoData (host.net pkg) (host.nSize pkg)
        pkg.pszLocation pkg.pszName dir
      checkAndMark host args pRepo file

/-- `TDNFRepoSync` from its checks to the end of the loop over the packages, with the root path -/
def download (pPkgInfos : List PkgInfo) : Call Text := do
  fromExcept (checkArgs args repos)
  -- the disk and the packages are those after the refresh and the query that follow
  if args.nGPGCheck ∧ !host.rpmtsCreate then throw .rpmtsCreateFailed
  let pszRootPath ← rootPath host args
  pPkgInfos.forM (syncPackage host args repos pszRootPath)
  return pszRootPath

/-- The comparison with the last four characters of a path; a path that has fewer starts with a
slash, which differs from the character of `.rpm` that it is compared with. -/
def isRpm (path : Text) : Bool := ".rpm".toList.isSuffixOf path

/-- `_rm_rpms`; `remove` takes no file away with a directory. -/
def rmRpms (pszFilePath : Text) : Call Unit := do
  if isRpm pszFilePath then
    match (← get).fs.stat (keepFile pszFilePath) with
    | .error .noent => modify (Disk.unlink pszFilePath)
    | .error e => throw (.system (errnoCode e))
    -- marker file can be removed now
    | .ok _ => modify (Disk.unlink (keepFile pszFilePath))

/-- `nftw` with `_rm_rpms` -/
def nftw (dir : Text) : Call Unit := do
  let s ← get
  match s.fs.stat dir with
  | .error e => throw (.system (errnoCode e))
  | .ok _ => (host.ftw s.fs dir).forM fun names => rmRpms (dir ++ body names)

/-- The directories that the delete pass walks over. -/
def walkDirs (pszRootPath : Text) : List Text :=
  if args.nDelete then (enabledRepos repos).map fun repo => repoDir pszRootPath repo.pszId else []

/-- The delete pass of `TDNFRepoSync` -/
def deletePass (pszRootPath : Text) : Call Unit :=
  (walkDirs args repos pszRootPath).forM (nftw host)

/-- The packages that the loop goes through; a chain that comes round again keeps it going. -/
def loopPackages (h : Heap PkgInfo) (pPkgInfos : Option ℕ) : List PkgInfo :=
  let h := if args.nNewestOnly then afterFilter host.evrcmp host.qsort h pPkgInfos else h
  (h.follow h.nodes.length pPkgInfos).map (infoAt h)

/-- `TDNFRepoSync`, up to its delete pass -/
def repoSync (h : Heap PkgInfo) (pPkgInfos : Option ℕ) : Call Unit :=
  mapFault (fun e => if e = .noMatch then .noData else e) do
    let pszRootPath ← download host args repos (loopPackages host args h pPkgInfos)
    deletePass host args repos pszRootPath

end Code

/-! ## What the delete pass promises -/

/-- The name of a package file. -/
def IsRpm (l : Loc) : Prop := ∃ name d, l = name :: d ∧ ".rpm".toList <:+ name.val

/-- The place of the marker of a file. -/
def keepOf : Loc → Loc
  | [] => []
  | name :: d => ⟨keepFile name.val, isName_append name.property.2.1 (by decide) (by decide)⟩ :: d

def IsFile (s : Disk) (l : Loc) : Prop := ∃ size, s.fs.node l = some (.file size)

section Promise

variable (args : RepoSyncArgs) (repos : List SyncRepo) (pszRootPath : Text)
  (pPkgInfos : List PkgInfo)

/-- The place of a package file. -/
def fileOf (pkg : PkgInfo) : Option Loc :=
  normalFrom [] (moves (joinPath [packageDir args pszRootPath pkg, treePath pkg.pszLocation]))

/-- The file belongs to a package that the options select. -/
def OfSelected (l : Loc) : Prop :=
  ∃ pkg ∈ pPkgInfos, selected args pkg = true ∧ fileOf args pszRootPath pkg = some l

/-- The only package files that are removed are `*.rpm` files below the directories of enabled
repositories that belong to no selected package, and none if only URLs are printed. -/
def Right (s u : Disk) : Prop :=
  ∀ l, IsFile s l → u.fs.node l = none → IsRpm l ∨ OfSelected args pszRootPath pPkgInfos l →
    IsRpm l ∧ (∃ repo ∈ enabledRepos repos, locOf (repoDir pszRootPath repo.pszId) <:+ l) ∧
      ¬ OfSelected args pszRootPath pPkgInfos l ∧ args.nPrintUrlsOnly = false

/-- A walk over a directory comes to this place as a `*.rpm` file. -/
def Found (t : Disk) (dir : Text) (l : Loc) : Prop :=
  ∃ names, names ++ locOf dir = l ∧ t.fs.node l ≠ none ∧ isRpm (dir ++ body names) = true

/-- Before a walk the files that have to stay have their markers, and none of them is a marker. -/
structure Careful (t : Disk) (dir : Text) : Prop where
  marked : ∀ l, Found t dir l → IsFile t l →
    args.nPrintUrlsOnly = true ∨ OfSelected args pszRootPath pPkgInfos l →
      t.fs.node (keepOf l) ≠ none
  markers : ∀ l, Found t dir l → IsFile t (keepOf l) →
    ¬ OfSelected args pszRootPath pPkgInfos (keepOf l)

end Promise

/-- The places below a path at which something is, each once. -/
structure Lists (t : Disk) (dir : Text) (visited : List Loc) : Prop where
  nodup : visited.Nodup
  mem_iff : ∀ names, names ∈ visited ↔ t.fs.node (names ++ locOf dir) ≠ none

/-- In a pass over some directories the walk over `dir` starts from the disk `t`. -/
inductive WalkFrom (host : Host) : List Text → Disk → Text → Disk → Prop where
  | here {dir : Text} {dirs : List Text} {s : Disk} {x : Node} (hstat : s.fs.stat dir = .ok x) :
      WalkFrom host (dir :: dirs) s dir s
  | later {dir dir' : Text} {dirs : List Text} {s u t : Disk}
      (hrun : (nftw host dir).run s = .ok () u) (hrest : WalkFrom host dirs u dir' t) :
      WalkFrom host (dir :: dirs) s dir' t

/-! ## Package files and markers -/

theorem isRpm_iff {path : Text} : isRpm path = true ↔ ".rpm".toList <:+ path :=
  List.isSuffixOf_iff_suffix

theorem locOf_rpm {path : Text} (h : isRpm path = true) :
    IsRpm (locOf path) ∧ locOf (keepFile path) = keepOf (locOf path) := by
  obtain ⟨q, rfl⟩ := isRpm_iff.mp h
  have hslash : '/' ∉ ".rpm".toList := by decide
  have hlast : lastPiece (q ++ ".rpm".toList) = lastPiece q ++ ".rpm".toList :=
    lastPiece_append q hslash
  have hname : IsName (lastPiece (q ++ ".rpm".toList)) := by
    rw [hlast]
    exact isName_append (not_mem_lastPiece q) hslash (by decide)
  rw [locOf_of_isName hname]
  refine ⟨⟨_, _, rfl, ?_⟩, ?_⟩
  · change ".rpm".toList <:+ lastPiece (q ++ ".rpm".toList)
    rw [hlast]
    exact List.suffix_append _ _
  · rw [keepFile, locOf_append _ (by decide) (by decide)]
    rfl

theorem keepOf_injective {l l' : Loc} (h : keepOf l = keepOf l') : l = l' := by
  cases l with
  | nil =>
      cases l' with
      | nil => rfl
      | cons name' d' => cases h
  | cons name d =>
      cases l' with
      | nil => cases h
      | cons name' d' =>
          obtain ⟨hname, rfl⟩ := List.cons.inj h
          have htext := List.append_cancel_right (congrArg Subtype.val hname)
          rw [Subtype.ext htext]

/-- A marker is no package file. -/
theorem not_isRpm_keepOf (l : Loc) : ¬ IsRpm (keepOf l) := by
  rintro ⟨name, d, hl, hrpm⟩
  cases l with
  | nil => cases hl
  | cons name' d' =>
      obtain ⟨rfl, -⟩ := List.cons.inj hl
      have hkeep := List.suffix_append name'.val ".reposync-keep".toList
      exact absurd (List.suffix_of_suffix_length_le hrpm hkeep (by decide)) (by decide)

theorem Found.isRpm {t : Disk} {dir : Text} {l : Loc} (h : Found t dir l) : IsRpm l := by
  obtain ⟨names, rfl, -, hrpm⟩ := h
  rw [← locOf_append_body]
  exact (locOf_rpm hrpm).1

theorem Found.below {t : Disk} {dir : Text} {l : Loc} (h : Found t dir l) : locOf dir <:+ l := by
  obtain ⟨names, rfl, -⟩ := h
  exact List.suffix_append _ _

/-! ## Disks that lose files -/

/-- From the first disk to the second the files at these places are lost, and nothing else. -/
def Loses (P : Loc → Prop) (s u : Disk) : Prop :=
  ∀ l, (IsFile s l ∧ P l → u.fs.node l = none) ∧
    (¬ (IsFile s l ∧ P l) → u.fs.node l = s.fs.node l)

namespace Loses

variable {P Q : Loc → Prop} {s u v : Disk} {l : Loc}

theorem refl (s : Disk) : Loses (fun _ => False) s s :=
  fun _ => ⟨fun h => h.2.elim, fun _ => rfl⟩

theorem congr (h : Loses P s u) (hPQ : ∀ l, IsFile s l → (P l ↔ Q l)) : Loses Q s u := by
  intro l
  have hiff : IsFile s l ∧ P l ↔ IsFile s l ∧ Q l := and_congr_right (hPQ l)
  rw [← hiff]
  exact h l

theorem isFile_iff (h : Loses P s u) : IsFile u l ↔ IsFile s l ∧ ¬ P l := by
  by_cases hl : IsFile s l ∧ P l
  · have hnone := (h l).1 hl
    constructor
    · rintro ⟨size, hsize⟩
      rw [hnone] at hsize
      cases hsize
    · exact fun hnot => absurd hl.2 hnot.2
  · have hsame := (h l).2 hl
    rw [IsFile, hsame]
    exact ⟨fun hfile => ⟨hfile, fun hP => hl ⟨hfile, hP⟩⟩, And.left⟩

theorem trans (h : Loses P s u) (h' : Loses Q u v) : Loses (fun l => P l ∨ Q l) s v := by
  intro l
  have hfile := h.isFile_iff (l := l)
  constructor
  · rintro ⟨hs, hPQ⟩
    by_cases hP : P l
    · have hnone : ¬ (IsFile u l ∧ Q l) := fun hu => (hfile.mp hu.1).2 hP
      rw [(h' l).2 hnone, (h l).1 ⟨hs, hP⟩]
    · exact (h' l).1 ⟨hfile.mpr ⟨hs, hP⟩, hPQ.resolve_left hP⟩
  · intro hnot
    have hP : ¬ (IsFile s l ∧ P l) := fun hs => hnot ⟨hs.1, .inl hs.2⟩
    have hQ : ¬ (IsFile u l ∧ Q l) := fun hu => hnot ⟨(hfile.mp hu.1).1, .inr hu.2⟩
    rw [(h' l).2 hQ, (h l).2 hP]

theorem node_eq (h : Loses P s u) (hl : u.fs.node l ≠ none) : u.fs.node l = s.fs.node l :=
  (h l).2 fun hlost => hl ((h l).1 hlost)

theorem dirs (h : Loses P s u) (hl : s.fs.node l = some .dir) : u.fs.node l = some .dir := by
  rw [(h l).2, hl]
  rintro ⟨⟨size, hsize⟩, -⟩
  rw [hl] at hsize
  cases hsize

end Loses

theorem unlink_loses {p : Text} {s : Disk} (h : s.fs.Reaches p) :
    Loses (· = locOf p) s (s.unlink p) := by
  intro l
  by_cases hfile : IsFile s (locOf p)
  · obtain ⟨size, hsize⟩ := hfile
    obtain ⟨fs, hunlink, hnode⟩ := h.unlink_file hsize
    simp only [Disk.unlink, hunlink, hnode]
    refine ⟨fun hl => if_pos hl.2, fun hl => if_neg ?_⟩
    rintro rfl
    exact hl ⟨⟨size, hsize⟩, rfl⟩
  · obtain ⟨e, hunlink⟩ := h.unlink_other fun size hsize => hfile ⟨size, hsize⟩
    simp only [Disk.unlink, hunlink]
    refine ⟨?_, fun _ => trivial⟩
    rintro ⟨hl, rfl⟩
    exact absurd hl hfile

/-! ## One walk -/

/-- The files that a visit of a path takes away. -/
def Visited (s : Disk) (path : Text) (l : Loc) : Prop :=
  isRpm path = true ∧
    (l = locOf path ∧ s.fs.node (keepOf l) = none ∨ l = keepOf (locOf path))

theorem rmRpms_loses {s : Disk} {path : Text} (h : s.fs.Reaches path) :
    ∃ u, (rmRpms path).run s = .ok () u ∧ Loses (Visited s path) s u := by
  by_cases hrpm : isRpm path = true
  · obtain ⟨-, hkeep⟩ := locOf_rpm hrpm
    have hreach : s.fs.Reaches (keepFile path) := h.append (by decide)
    have hstat := hreach.stat_eq
    rw [hkeep] at hstat
    cases hnode : s.fs.node (keepOf (locOf path)) with
    | none =>
        refine ⟨s.unlink path, ?_, (unlink_loses h).congr fun l hl => ⟨?_, ?_⟩⟩
        · rw [hnode] at hstat
          simp only [rmRpms, hrpm, if_true]
          rw [run_get_bind, hstat]
          rfl
        · rintro rfl
          exact ⟨hrpm, .inl ⟨rfl, hnode⟩⟩
        · rintro ⟨-, ⟨rfl, -⟩ | rfl⟩
          · rfl
          · obtain ⟨size, hsize⟩ := hl
            rw [hnode] at hsize
            cases hsize
    | some x =>
        refine ⟨s.unlink (keepFile path), ?_, (unlink_loses hreach).congr fun l hl => ⟨?_, ?_⟩⟩
        · rw [hnode] at hstat
          simp only [rmRpms, hrpm, if_true]
          rw [run_get_bind, hstat]
          rfl
        · rintro rfl
          exact ⟨hrpm, .inr hkeep⟩
        · rintro ⟨-, ⟨rfl, hnone⟩ | rfl⟩
          · rw [hnode] at hnone
            cases hnone
          · exact hkeep.symm
  · refine ⟨s, ?_, (Loses.refl s).congr fun l _ => ⟨False.elim, fun hvisit => hrpm hvisit.1⟩⟩
    simp only [rmRpms, if_neg hrpm]
    rfl

/-- The files that a walk takes away which visits some places below a directory. -/
def Swept (s : Disk) (dir : Text) (visited : List Loc) (l : Loc) : Prop :=
  ∃ names ∈ visited, Visited s (dir ++ body names) l

/-- A visit leaves the markers of the other files alone. -/
theorem keep_of_visit {s u : Disk} {path path' : Text} {l : Loc}
    (h : Loses (Visited s path) s u) (hne : locOf path ≠ locOf path') :
    Visited u path' l ↔ Visited s path' l := by
  refine and_congr_right fun hrpm => or_congr_left (and_congr_right ?_)
  rintro rfl
  rw [(h _).2]
  rintro ⟨-, hvisit, ⟨hl, -⟩ | hl⟩
  · exact not_isRpm_keepOf _ (hl ▸ (locOf_rpm hvisit).1)
  · exact hne (keepOf_injective hl).symm

theorem forM_rmRpms {s : Disk} {dir : Text} {visited : List Loc} (hnodup : visited.Nodup)
    (h : ∀ names ∈ visited, s.fs.Reaches (dir ++ body names)) :
    ∃ u, (visited.forM fun names => rmRpms (dir ++ body names)).run s = .ok () u ∧
      Loses (Swept s dir visited) s u := by
  induction visited generalizing s with
  | nil =>
      refine ⟨s, rfl, (Loses.refl s).congr fun l _ => ⟨False.elim, ?_⟩⟩
      rintro ⟨names, hnames, -⟩
      cases hnames
  | cons names visited ih =>
      obtain ⟨hnot, hnodup⟩ := List.nodup_cons.mp hnodup
      rw [List.forall_mem_cons] at h
      obtain ⟨u, hrun, hlose⟩ := rmRpms_loses h.1
      obtain ⟨v, hrest, hlose'⟩ := ih hnodup fun names' hnames' =>
        (h.2 names' hnames').of_dirs fun d hd => hlose.dirs hd
      refine ⟨v, ?_, (hlose.trans hlose').congr fun l _ => ?_⟩
      · rw [List.forM, run_bind_ok hrun]
        exact hrest
      · have hother : ∀ names' ∈ visited, Visited u (dir ++ body names') l ↔
            Visited s (dir ++ body names') l := by
          intro names' hnames'
          refine keep_of_visit hlose ?_
          rw [locOf_append_body, locOf_append_body, ne_eq, List.append_left_inj]
          rintro rfl
          exact hnot hnames'
        simp only [Swept, List.exists_mem_cons_iff]
        exact or_congr_right (exists_congr fun names' =>
          and_congr_right fun hnames' => hother names' hnames')

/-- The files that a walk over a whole directory takes away. -/
def Gone (s : Disk) (dir : Text) (l : Loc) : Prop :=
  Found s dir l ∧ s.fs.node (keepOf l) = none ∨ ∃ l', Found s dir l' ∧ l = keepOf l'

theorem swept_iff_gone {s : Disk} {dir : Text} {visited : List Loc} (h : Lists s dir visited)
    {l : Loc} : Swept s dir visited l ↔ Gone s dir l := by
  constructor
  · rintro ⟨names, hnames, hrpm, ⟨hl, hnone⟩ | hl⟩
    · rw [locOf_append_body] at hl
      exact .inl ⟨⟨names, hl.symm, hl ▸ (h.mem_iff names).mp hnames, hrpm⟩, hnone⟩
    · rw [locOf_append_body] at hl
      exact .inr ⟨_, ⟨names, rfl, (h.mem_iff names).mp hnames, hrpm⟩, hl⟩
  · rintro (⟨⟨names, rfl, hnode, hrpm⟩, hnone⟩ | ⟨_, ⟨names, rfl, hnode, hrpm⟩, rfl⟩)
    · exact ⟨names, (h.mem_iff names).mpr hnode, hrpm, .inl ⟨(locOf_append_body _ _).symm, hnone⟩⟩
    · refine ⟨names, (h.mem_iff names).mpr hnode, hrpm, .inr ?_⟩
      rw [locOf_append_body]

theorem nftw_loses {host : Host} {s : Disk} {dir : Text} {x : Node} (hstat : s.fs.stat dir = .ok x)
    (hlist : Lists s dir (host.ftw s.fs dir)) :
    ∃ u, (nftw host dir).run s = .ok () u ∧ Loses (Gone s dir) s u := by
  have hreach := reaches_of_stat hstat
  obtain ⟨u, hrun, hlose⟩ := forM_rmRpms hlist.nodup fun names hnames =>
    hreach.below ((hlist.mem_iff names).mp hnames)
  refine ⟨u, ?_, hlose.congr fun l _ => swept_iff_gone hlist⟩
  rw [nftw, run_get_bind, hstat]
  exact hrun

/-! ## The whole pass -/

section Pass

variable {host : Host} {dirs : List Text} {s t u : Disk} {dir : Text} {l : Loc}

/-- Every walk of a pass finds what the system then lists. -/
def Listed (host : Host) (dirs : List Text) (s : Disk) : Prop :=
  ∀ dir t, WalkFrom host dirs s dir t → Lists t dir (host.ftw t.fs dir)

/-- The pass takes away what its walks take away. -/
theorem forM_nftw_loses (hlist : Listed host dirs s) :
    Loses (fun l => ∃ dir t, WalkFrom host dirs s dir t ∧ IsFile t l ∧ Gone t dir l) s
      (finalState ((dirs.forM (nftw host)).run s)) := by
  induction dirs generalizing s with
  | nil =>
      refine (Loses.refl s).congr fun l _ => ⟨False.elim, ?_⟩
      rintro ⟨dir, t, hwalk, -⟩
      cases hwalk
  | cons dir dirs ih =>
      rw [List.forM]
      cases hstat : s.fs.stat dir with
      | error e =>
          have hrun : (nftw host dir).run s = .error (.system (errnoCode e)) s := by
            rw [nftw, run_get_bind, hstat]
            rfl
          rw [run_bind_error hrun]
          refine (Loses.refl s).congr fun l _ => ⟨False.elim, ?_⟩
          rintro ⟨dir', t, hwalk, -⟩
          cases hwalk with
          | here hstat' =>
              rw [hstat] at hstat'
              cases hstat'
          | later hrun' hrest =>
              rw [hrun] at hrun'
              cases hrun'
      | ok x =>
          obtain ⟨u, hrun, hlose⟩ := nftw_loses hstat (hlist _ _ (.here hstat))
          rw [run_bind_ok hrun]
          have hrest := ih fun dir' t hwalk => hlist dir' t (.later hrun hwalk)
          refine (hlose.trans hrest).congr fun l hl => ⟨?_, ?_⟩
          · rintro (hgone | ⟨dir', t, hwalk, hgone⟩)
            · exact ⟨dir, s, .here hstat, hl, hgone⟩
            · exact ⟨dir', t, .later hrun hwalk, hgone⟩
          · rintro ⟨dir', t, hwalk, hgone⟩
            cases hwalk with
            | here => exact .inl hgone.2
            | later hrun' hwalk =>
                rw [hrun] at hrun'
                cases hrun'
                exact .inr ⟨dir', t, hwalk, hgone⟩

/-- The first walk of a pass, if it ends well. -/
theorem Listed.first (hlist : Listed host (dir :: dirs) s)
    (hrun : (nftw host dir).run s = .ok () u) : Loses (Gone s dir) s u ∧ Listed host dirs u := by
  refine ⟨?_, fun dir' t hwalk => hlist dir' t (.later hrun hwalk)⟩
  cases hstat : s.fs.stat dir with
  | error e =>
      rw [nftw, run_get_bind, hstat] at hrun
      cases hrun
  | ok x =>
      obtain ⟨u', hrun', hlose⟩ := nftw_loses hstat (hlist _ _ (.here hstat))
      rw [hrun] at hrun'
      cases hrun'
      exact hlose

/-- What is there before a walk was there before the pass. -/
theorem WalkFrom.node_eq (h : WalkFrom host dirs s dir t) (hlist : Listed host dirs s)
    (hl : t.fs.node l ≠ none) : t.fs.node l = s.fs.node l := by
  induction h with
  | here => rfl
  | later hrun hrest ih =>
      obtain ⟨hlose, hlist'⟩ := hlist.first hrun
      have hsame := ih hlist' hl
      rw [hsame]
      exact hlose.node_eq (hsame ▸ hl)

theorem WalkFrom.mem (h : WalkFrom host dirs s dir t) : dir ∈ dirs := by
  induction h with
  | here => exact List.mem_cons_self
  | later hrun hrest ih => exact List.mem_cons_of_mem _ ih

/-- The files of an earlier walk are not those of a later one. -/
theorem WalkFrom.apart (h : WalkFrom host dirs s dir t) (hlist : Listed host dirs s)
    (hrpm : IsRpm l) (hbelow : locOf dir <:+ l)
    (hapart : dirs.Pairwise fun d d' => locOf d <:+ l → ¬ locOf d' <:+ l) :
    t.fs.node l = s.fs.node l ∧ t.fs.node (keepOf l) = s.fs.node (keepOf l) := by
  induction h with
  | here => exact ⟨rfl, rfl⟩
  | later hrun hrest ih =>
      rename_i first _ _ _ u _
      obtain ⟨hlose, hlist'⟩ := hlist.first hrun
      obtain ⟨hfirst, hapart⟩ := List.pairwise_cons.mp hapart
      have hnot : ¬ locOf first <:+ l := fun hl => hfirst _ hrest.mem hl hbelow
      obtain ⟨hnode, hkeep⟩ := ih hlist' hbelow hapart
      rw [hnode, hkeep]
      constructor
      · refine (hlose l).2 ?_
        rintro ⟨-, ⟨hfound, -⟩ | ⟨l', -, rfl⟩⟩
        · exact hnot hfound.below
        · exact not_isRpm_keepOf l' hrpm
      · refine (hlose _).2 ?_
        rintro ⟨-, ⟨hfound, -⟩ | ⟨l', hfound, hl'⟩⟩
        · exact not_isRpm_keepOf l hfound.isRpm
        · exact hnot (keepOf_injective hl' ▸ hfound.below)

end Pass

section Condition

variable {host : Host} {args : RepoSyncArgs} {repos : List SyncRepo} {pPkgInfos : List PkgInfo}
  {s : Disk} {pszRootPath : Text}

/-- A pass is right exactly if its walks start carefully. -/
theorem right_iff_careful (hlist : Listed host (walkDirs args repos pszRootPath) s) :
    Right args repos pszRootPath pPkgInfos s
        (finalState ((deletePass host args repos pszRootPath).run s)) ↔
      ∀ dir t, WalkFrom host (walkDirs args repos pszRootPath) s dir t →
        Careful args pszRootPath pPkgInfos t dir := by
  have hlose := forM_nftw_loses hlist
  rw [← deletePass] at hlose
  constructor
  · intro hright dir t hwalk
    have hgone : ∀ l, IsFile t l → Gone t dir l →
        IsRpm l ∨ OfSelected args pszRootPath pPkgInfos l →
          ¬ OfSelected args pszRootPath pPkgInfos l ∧ args.nPrintUrlsOnly = false := by
      intro l hl hgone hpackage
      obtain ⟨size, hsize⟩ := hl
      have hfile : IsFile s l := by
        refine ⟨size, ?_⟩
        rw [← hwalk.node_eq hlist (by simp [hsize]), hsize]
      have hnone := (hlose l).1 ⟨hfile, dir, t, hwalk, ⟨size, hsize⟩, hgone⟩
      exact (hright l hfile hnone hpackage).2.2
    refine ⟨fun l hfound hl hstays hnone => ?_, fun l hfound hl hselected => ?_⟩
    · obtain ⟨hnot, hurls⟩ := hgone l hl (.inl ⟨hfound, hnone⟩) (.inl hfound.isRpm)
      obtain hprint | hselected := hstays
      · rw [hurls] at hprint
        cases hprint
      · exact hnot hselected
    · exact (hgone _ hl (.inr ⟨l, hfound, rfl⟩) (.inr hselected)).1 hselected
  · intro hcareful l hl hnone hpackage
    have hgone : ∃ dir t, WalkFrom host (walkDirs args repos pszRootPath) s dir t ∧
        IsFile t l ∧ Gone t dir l := by
      by_contra hnot
      obtain ⟨size, hsize⟩ := hl
      rw [(hlose l).2 fun hlost => hnot hlost.2, hsize] at hnone
      cases hnone
    obtain ⟨dir, t, hwalk, hfile, hgone⟩ := hgone
    obtain ⟨hmarked, hmarkers⟩ := hcareful dir t hwalk
    obtain ⟨hfound, hkeep⟩ | ⟨l', hfound, rfl⟩ := hgone
    · have hstays : ¬ (args.nPrintUrlsOnly = true ∨
          OfSelected args pszRootPath pPkgInfos l) := fun h => hmarked l hfound hfile h hkeep
      rw [not_or, Bool.not_eq_true] at hstays
      refine ⟨hfound.isRpm, ?_, hstays.2, hstays.1⟩
      have hmem := hwalk.mem
      rw [walkDirs] at hmem
      split at hmem
      · obtain ⟨repo, hrepo, rfl⟩ := List.mem_map.mp hmem
        exact ⟨repo, hrepo, hfound.below⟩
      · cases hmem
    · obtain hrpm | hselected := hpackage
      · exact absurd hrpm (not_isRpm_keepOf l')
      · exact absurd hselected (hmarkers l' hfound hfile)

end Condition

end Tdnf.Client.RepoSync
