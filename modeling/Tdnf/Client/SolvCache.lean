import Tdnf.Client.RepoEffects
import Tdnf.Library.Transition

/-!
# The cache of loaded repositories

The `.solv` file of a repository holds what was loaded from `repomd.xml` and the
parts that were not skipped, with a cookie for `repomd.xml` alone. An invariant of
the cache directory says what the file holds, and with it when a run that reads
the file loads what the metadata says.
-/

namespace Tdnf.Client.RepoCache

open Procedure PathText FileStore Common Evolution Transition

variable {δ κ : Type}

/-! ## Places of the cache directory -/

theorem isName_repodata : IsName "repodata".toList := by decide

theorem isName_repoMD : IsName "repomd.xml".toList := by decide

theorem isName_metalink : IsName "metalink".toList := by decide

theorem isName_mirrorlist : IsName "mirrorlist".toList := by decide

theorem isName_tmp : IsName "tmp".toList := by decide

theorem isName_marker : IsName "lastrefresh".toList := by decide

theorem isName_solvcache : IsName "solvcache".toList := by decide

/-- The directory of the metadata in a cache directory. -/
def dataLoc (dir : Loc) : Loc := ⟨"repodata".toList, isName_repodata⟩ :: dir

def repoMDLoc (dir : Loc) : Loc := ⟨"repomd.xml".toList, isName_repoMD⟩ :: dataLoc dir

def metalinkLoc (dir : Loc) : Loc := ⟨"metalink".toList, isName_metalink⟩ :: dataLoc dir

def tmpLoc (dir : Loc) : Loc := ⟨"tmp".toList, isName_tmp⟩ :: dir

def solvLoc (dir : Loc) : Loc := ⟨"solvcache".toList, isName_solvcache⟩ :: dir

theorem isName_solv {id : Text} (hid : '/' ∉ id) : IsName (id ++ ".solv".toList) :=
  isName_append hid (by decide) (by decide)

/-- The place of a `.solv` file. -/
def solvPlace (dir : Loc) (id : Text) : Loc :=
  lexical dir (moves ("solvcache/".toList ++ id ++ ".solv".toList))

/-- Where the location of a part leads. -/
def partPlace (dir : Loc) (location : Text) : Loc := lexical dir (moves location)

/-- The places of `repomd.xml`, of the parts and of the `.solv` file. -/
def Kept (dir l : Loc) : Prop :=
  (∃ name, l = name :: dataLoc dir ∧ l ≠ metalinkLoc dir) ∨ ∃ name, l = name :: solvLoc dir

section Paths

variable {conf : RefreshConf} {repo : Repo} {dir : Loc}

/-- A path that goes on behind another one. -/
theorem locOf_of_moves {p q : Text} {steps : List Comp} (h : moves p = moves q ++ steps) :
    locOf p = lexical (locOf q) steps := by
  calc locOf p
      = lexical [] (moves p) := (lexical_moves [] p).symm
    _ = lexical (lexical [] (moves q)) steps := by rw [h, lexical_append]
    _ = lexical (locOf q) steps := by rw [lexical_moves, locOf]

/-- A name behind a path leads to the place of this name. -/
theorem locOf_joined (p : Text) (name : Name) :
    locOf (joinPath [p, name.val]) = name :: locOf p := by
  have hmoves : moves (joinPath [p, name.val]) = moves p ++ [.down name] := by
    simp [moves_joinPath, moves_name]
  rw [locOf_of_moves hmoves]
  rfl

theorem locOf_cachePath (hdir : locOf (cachePath conf repo []) = dir) (name : Name) :
    locOf (cachePath conf repo [name.val]) = name :: dir := by
  have hmoves : moves (cachePath conf repo [name.val]) =
      moves (cachePath conf repo []) ++ [.down name] := by
    simp [cachePath, moves_joinPath, moves_name]
  rw [locOf_of_moves hmoves, hdir]
  rfl

theorem locOf_joinedDataDir (hdir : locOf (cachePath conf repo []) = dir) :
    locOf (joinedDataDir conf repo) = dataLoc dir := by
  rw [joinedDataDir, locOf_joined _ ⟨_, isName_repodata⟩, hdir, dataLoc]

theorem locOf_repoDataDir (hdir : locOf (cachePath conf repo []) = dir) :
    locOf (repoDataDir conf repo) = dataLoc dir :=
  locOf_cachePath hdir ⟨_, isName_repodata⟩

theorem locOf_repoMDFile (hdir : locOf (cachePath conf repo []) = dir) :
    locOf (repoMDFile conf repo) = repoMDLoc dir := by
  rw [repoMDFile, locOf_joined _ ⟨_, isName_repoMD⟩, locOf_joinedDataDir hdir, repoMDLoc]

theorem locOf_metalinkFile (hdir : locOf (cachePath conf repo []) = dir) :
    locOf (metalinkFile conf repo) = metalinkLoc dir := by
  rw [metalinkFile, locOf_joined _ ⟨_, isName_metalink⟩, locOf_joinedDataDir hdir, metalinkLoc]

theorem locOf_mirrorFile (hdir : locOf (cachePath conf repo []) = dir) :
    locOf (mirrorFile conf repo) = ⟨"mirrorlist".toList, isName_mirrorlist⟩ :: dir :=
  locOf_cachePath hdir ⟨_, isName_mirrorlist⟩

theorem locOf_marker (hdir : locOf (cachePath conf repo []) = dir) :
    locOf (marker conf repo) = ⟨"lastrefresh".toList, isName_marker⟩ :: dir :=
  locOf_cachePath hdir ⟨_, isName_marker⟩

theorem locOf_tmpRepoMDFile (hdir : locOf (cachePath conf repo []) = dir) :
    locOf (tmpRepoMDFile conf repo) = ⟨"repomd.xml".toList, isName_repoMD⟩ :: tmpLoc dir := by
  have htmp : locOf (tmpDir conf repo) = tmpLoc dir := locOf_cachePath hdir ⟨_, isName_tmp⟩
  rw [tmpRepoMDFile, locOf_joined _ ⟨_, isName_repoMD⟩, htmp]

theorem locOf_solvCacheDir (hdir : locOf (cachePath conf repo []) = dir) :
    locOf (solvCacheDir conf repo) = solvLoc dir :=
  locOf_cachePath hdir ⟨_, isName_solvcache⟩

theorem locOf_solvFilePath (hdir : locOf (cachePath conf repo []) = dir) :
    locOf (solvFilePath conf repo) = solvPlace dir repo.pszId := by
  have hmoves : moves (solvFilePath conf repo) = moves (cachePath conf repo []) ++
      moves ("solvcache/".toList ++ repo.pszId ++ ".solv".toList) := by
    rw [← moves_append_slash]
    simp [solvFilePath]
  rw [locOf_of_moves hmoves, hdir, solvPlace]

/-- A slash at the end of a path leads nowhere. -/
theorem moves_trimmed (p : Text) :
    moves (if p.getLast? = some '/' then p.dropLast else p) = moves p := by
  split
  · rename_i hlast
    obtain ⟨front, rfl⟩ := List.getLast?_eq_some_iff.mp hlast
    rw [List.dropLast_concat, moves_append_slash, moves_nil, List.append_nil]
  · rfl

theorem moves_slashed (p location : Text) :
    moves (p ++ if location.head? = some '/' then location else '/' :: location) =
      moves p ++ moves location := by
  split
  · rename_i hhead
    obtain ⟨rest, rfl⟩ := List.head?_eq_some_iff.mp hhead
    rw [moves_append_slash, moves_slash]
  · exact moves_append_slash p location

theorem locOf_partPath (hdir : locOf (cachePath conf repo []) = dir) (location : Text) :
    locOf (partPath conf repo location) = partPlace dir location := by
  have hmoves : moves (partPath conf repo location) =
      moves (cachePath conf repo []) ++ moves location := by
    rw [partPath, moves_slashed, moves_trimmed]
  rw [locOf_of_moves hmoves, hdir, partPlace]

theorem solvPlace_eq {id : Text} (hid : '/' ∉ id) :
    solvPlace dir id = ⟨id ++ ".solv".toList, isName_solv hid⟩ :: solvLoc dir := by
  have hmoves : moves ("solvcache/".toList ++ id ++ ".solv".toList) =
      [.down ⟨_, isName_solvcache⟩, .down ⟨_, isName_solv hid⟩] := by
    calc moves ("solvcache/".toList ++ id ++ ".solv".toList)
        = moves ("solvcache".toList ++ '/' :: (id ++ ".solv".toList)) := by simp
      _ = moves "solvcache".toList ++ moves (id ++ ".solv".toList) := moves_append_slash _ _
      _ = [.down ⟨_, isName_solvcache⟩] ++ [.down ⟨_, isName_solv hid⟩] := by
          rw [moves_name ⟨_, isName_solvcache⟩, moves_name ⟨_, isName_solv hid⟩]
  rw [solvPlace, hmoves]
  rfl

end Paths

/-! ## What a run should load -/

section Promise

variable (fmt : Formats δ κ) (part : δ → Text → δ) (dir : Loc)

/-- One run of the loop in `TDNFRefreshSack` for the repository of the cache directory. -/
structure Run (δ κ : Type) where
  env : Env δ κ
  conf : RefreshConf
  repo : Repo

/-- The next state of the cache directory. -/
def step (s : Cache δ) (run : Run δ κ) : Option (Cache δ) :=
  some (finalState ((refreshRepo fmt run.env run.conf true run.repo).run s))

/-- A `.solv` file is read as it was written. -/
structure FaithfulSolv : Prop where
  cookie : ∀ content cookie, fmt.solvCookie (fmt.solvFile content cookie) = some cookie
  content : ∀ content cookie, fmt.addSolv (fmt.solvFile content cookie) = some content

/-- The parts that are wanted of a `repomd.xml`. -/
def selectedParts (repo : Repo) (data : δ) : List (Part × Text) :=
  match parseData fmt data with
  | .ok md => wantedParts repo md
  | .error _ => []

/-- Where the parts lie that a `repomd.xml` lists. -/
def ListedAt (data : δ) (location : Text) : Prop :=
  location ≠ [] ∧ ∃ kind, fmt.location data kind = some location

/-- Load `repomd.xml` and its parts of these kinds, with the data that belongs to it. -/
def loadKinds (data : δ) (kinds : List Part) : Except TdnfError κ := do
  let content ← fmt.loadRepomd fmt.emptyRepo data
  kinds.foldlM (fun content kind =>
    fmt.loadPart kind content (part data ((fmt.location data kind).getD []))) content

/-- What loading from scratch gives with the settings of the repository. -/
def fromScratch (repo : Repo) (data : δ) : Except TdnfError κ :=
  loadKinds fmt part data ((selectedParts fmt repo data).map Prod.fst)

/-- The `.solv` file is for another `repomd.xml`. -/
def Stale (id : Text) (s : Cache δ) : Prop :=
  ∃ solv data, s.files.data (solvPlace dir id) = some solv ∧
    s.files.data (repoMDLoc dir) = some data ∧ fmt.solvCookie solv ≠ some (fmt.cookie data)

/-- A run up to the point where the parts are seen to, with the base URLs. -/
def comeToParts (env : Env δ κ) (conf : RefreshConf) (repo : Repo) : CacheProc δ (List Text) := do
  expireMetadata env conf repo
  let _ ← attempt (makeDirs env (joinedDataDir conf repo))
  let (urls, nNeedDownload, cookie) ← startRepoMD fmt env conf repo
  if nNeedDownload && !conf.nCacheOnly then downloadRepoMD fmt env conf repo urls cookie
  return urls

/-- What the solv cache promises of a run that starts in `s`. -/
structure Transparent (s : Cache δ) (run : Run δ κ) : Prop where
  loaded : ∀ repo content t,
    (refreshRepo fmt run.env run.conf true run.repo).run s = .ok (repo, some content) t →
      run.repo.nHasMetaData = true → ∃ data, t.files.data (repoMDLoc dir) = some data ∧
        fromScratch fmt part run.repo data = .ok content
  notStale : run.repo.nHasMetaData = true → ∀ urls t,
    (comeToParts fmt run.env run.conf run.repo).run s = .ok urls t →
      ¬ Stale fmt dir run.repo.pszId t

end Promise

/-! ## The condition -/

section Condition

variable (fmt : Formats δ κ) (part : δ → Text → δ) (dir : Loc)

/-- Every part lies in the metadata directory at a place of its own. -/
structure WellPlaced (data : δ) : Prop where
  named : ∀ location, ListedAt fmt data location → ∃ name,
    partPlace dir location = name :: dataLoc dir ∧ partPlace dir location ≠ metalinkLoc dir ∧
      partPlace dir location ≠ repoMDLoc dir
  distinct : ∀ location other, ListedAt fmt data location → ListedAt fmt data other →
    partPlace dir location = partPlace dir other → location = other
  /-- no part lies where another one is kept while it is downloaded -/
  apart : ∀ location other, ListedAt fmt data location → ListedAt fmt data other →
    partPlace dir location ≠ partPlace dir (tmpOf other)

/-- The URLs from which a part is downloaded. -/
def sources (urls : List Text) (location : Text) : List Text :=
  if urls = [] then [location] else urls.map fun url => joinPath [url, location]

/-- Where a file of the metadata belongs. -/
inductive Belongs (id : Text) (data : δ) : Loc → Prop
  | repoMD : Belongs id data (repoMDLoc dir)
  | solv : Belongs id data (solvPlace dir id)
  | part {location : Text} (hlisted : ListedAt fmt data location) :
      Belongs id data (partPlace dir location)

/-- What a run has to find when it comes to the parts of `repomd.xml`. -/
structure Loadable (run : Run δ κ) (urls : List Text) (s : Cache δ) (data : δ) : Prop where
  placed : WellPlaced fmt dir data
  /-- no directory stands in the place of a file -/
  noDirs : ∀ l ctime, Belongs fmt dir run.repo.pszId data l → s.files l ≠ .dir ctime
  /-- the `.solv` file was made from the parts that are wanted now -/
  selection : s.files.data (solvPlace dir run.repo.pszId) ≠ none →
    s.made = (selectedParts fmt run.repo data).map Prod.fst
  /-- what the network serves for a part that is missing belongs to this `repomd.xml` -/
  served : ∀ kind location, (kind, location) ∈ selectedParts fmt run.repo data →
    s.files.data (partPlace dir location) = none → ∀ url ∈ sources urls location,
      ∀ t data' chmod, run.env.fetch url t = .saved data' chmod → data' = part data location

/-- The runs of which the solv cache keeps its promise. -/
structure Guard (id : Text) (s : Cache δ) (run : Run δ κ) : Prop where
  place : locOf (cachePath run.conf run.repo []) = dir
  sameId : run.repo.pszId = id
  idName : '/' ∉ id
  /-- nothing below the directories of the metadata and of the `.solv` file refuses to go -/
  removable : ∀ p t l, Kept dir l → run.env.keeps p t l = false
  /-- ENOENT is reported only of what is not there -/
  honest : ∀ p t, run.env.stat p t = some 2 → t.files.data (locOf p) = none
  /-- no directory stands in the place of `repomd.xml` -/
  noDir : run.repo.nHasMetaData = true → ∀ urls t,
    (comeToParts fmt run.env run.conf run.repo).run s = .ok urls t →
      ∀ ctime, t.files (repoMDLoc dir) ≠ .dir ctime
  loadable : run.repo.nHasMetaData = true → ∀ urls t,
    (comeToParts fmt run.env run.conf run.repo).run s = .ok urls t →
      ∀ data, t.files.data (repoMDLoc dir) = some data → Loadable fmt part dir run urls t data

end Condition

/-! ## The invariant -/

section Invariant

variable (fmt : Formats δ κ) (part : δ → Text → δ) (dir : Loc) (id : Text)

/-- The parts and the `.solv` file in place are of this `repomd.xml`. -/
structure Coherent (s : Cache δ) (data : δ) : Prop where
  parts : ∀ location, ListedAt fmt data location →
    ∀ x, s.files.data (partPlace dir location) = some x → x = part data location
  solv : ∀ x, s.files.data (solvPlace dir id) = some x →
    ∃ content, x = fmt.solvFile content (fmt.cookie data) ∧
      loadKinds fmt part data s.made = .ok content

/-- What holds of the cache directory between runs. -/
def Inv (s : Cache δ) : Prop :=
  ∀ data, s.files.data (repoMDLoc dir) = some data → WellPlaced fmt dir data →
    Coherent fmt part dir id s data

end Invariant

section Places

variable {dir : Loc} {name : Name}

theorem not_kept_metalink : ¬ Kept dir (metalinkLoc dir) := by
  rintro (⟨_, _, hne⟩ | ⟨_, heq⟩)
  · exact hne rfl
  · simp [metalinkLoc, dataLoc, solvLoc] at heq

theorem not_kept_child : ¬ Kept dir (name :: dir) := by
  rintro (⟨_, heq, _⟩ | ⟨_, heq⟩) <;>
    · have hlength := congrArg List.length heq
      simp [dataLoc, solvLoc] at hlength

theorem not_kept_tmp : ¬ Kept dir (name :: tmpLoc dir) := by
  rintro (⟨_, heq, _⟩ | ⟨_, heq⟩) <;> simp [tmpLoc, dataLoc, solvLoc] at heq

theorem kept_repoMD : Kept dir (repoMDLoc dir) :=
  .inl ⟨_, rfl, by simp [repoMDLoc, metalinkLoc]⟩

theorem kept_solv {id : Text} (hid : '/' ∉ id) : Kept dir (solvPlace dir id) :=
  .inr ⟨_, solvPlace_eq hid⟩

end Places

/-! ## Steps that leave the metadata alone -/

section Steps

variable {fmt : Formats δ κ} {env : Env δ κ} {conf : RefreshConf} {repo : Repo} {dir : Loc}
  {s t : Cache δ}

/-- The files of the metadata stay as they are or go. -/
structure Aside (dir : Loc) (s t : Cache δ) : Prop where
  files : Shrinks (Kept dir) s.files t.files
  made : t.made = s.made

instance (dir : Loc) : Std.Refl (Aside dir : Cache δ → Cache δ → Prop) :=
  ⟨fun s => ⟨Shrinks.refl _ s.files, rfl⟩⟩

instance (dir : Loc) : IsTrans (Cache δ) (Aside dir) :=
  ⟨fun _ _ _ h h' => ⟨h.files.trans h'.files, h'.made.trans h.made⟩⟩

theorem aside_mkdir (s : Cache δ) (l : Loc) :
    Aside dir s { s with files := s.files.mkdir l env.now } :=
  ⟨Shrinks.mkdir _ s.files l env.now, rfl⟩

theorem aside_cleared (p : Text) (s : Cache δ) : Aside dir s (cleared env p s) :=
  ⟨Shrinks.wipe _ s.files _ _, rfl⟩

theorem aside_unlinked (p : Text) (s : Cache δ) : Aside dir s (unlinked env p s) := by
  simp only [unlinked]
  split
  · exact refl_of (Aside dir) s
  · exact ⟨Shrinks.drop _ s.files _, rfl⟩

theorem aside_clearedRpms (s : Cache δ) : Aside dir s (clearedRpms env conf repo s) := by
  simp only [clearedRpms]
  split
  · exact refl_of (Aside dir) s
  · exact aside_cleared _ s

/-- A download to another place leaves the metadata alone. -/
theorem aside_downloadFile (url : Text) {file : Text} (hfile : ¬ Kept dir (locOf file)) :
    Evolves (Aside dir) (downloadFile env url file) := by
  have hlog : Evolves (Aside dir) (modify fun s =>
      { s with downloads := s.downloads ++ [url] } : CacheProc δ Unit) :=
    evolves_modify fun s => ⟨Shrinks.refl _ s.files, rfl⟩
  refine hlog.bind fun _ => Evolves.ite _ (evolves_throw _) ?_
  refine Evolves.bind evolves_get fun s => ?_
  cases env.fetch url s with
  | refused e => exact evolves_throw e
  | failed e =>
      apply (evolves_modify fun s => ⟨Shrinks.drop _ s.files _, rfl⟩).bind
      exact fun _ => evolves_throw e
  | saved data chmod =>
      apply (evolves_modify fun s =>
        ⟨(Shrinks.drop _ s.files _).trans (Shrinks.put _ _ hfile), rfl⟩).bind
      exact fun _ => evolves_bailSys chmod

theorem aside_startRepoMD (hdir : locOf (cachePath conf repo []) = dir) :
    Evolves (Aside dir) (startRepoMD fmt env conf repo) := by
  apply evolves_startRepoMD aside_mkdir
  · intro url
    apply aside_downloadFile
    rw [locOf_metalinkFile hdir]
    exact not_kept_metalink
  · intro url
    apply aside_downloadFile
    rw [locOf_mirrorFile hdir]
    exact not_kept_child

theorem aside_expireMetadata : Evolves (Aside dir) (expireMetadata env conf repo) :=
  evolves_expireMetadata aside_cleared

theorem aside_touchMarker (hdir : locOf (cachePath conf repo []) = dir) :
    Evolves (Aside dir) (touchFile fmt env (marker conf repo)) := by
  apply evolves_touchFile
  intro s
  refine ⟨Shrinks.put _ _ ?_, rfl⟩
  rw [locOf_marker hdir]
  exact not_kept_child

theorem aside_downloadEnd : Evolves (Aside dir) (downloadEnd env repo) := by
  refine Evolves.bind evolves_get fun s => ?_
  have hlog (urls : List Text) : Evolves (Aside dir) (modify fun s =>
      { s with downloads := s.downloads ++ urls } : CacheProc δ Unit) :=
    evolves_modify fun s => ⟨Shrinks.refl _ s.files, rfl⟩
  apply (hlog _).bind
  intro _
  cases (env.downloadEnd repo s).1 with
  | none => exact evolves_pure ()
  | some e => exact evolves_throw e

/-- Of the files of the metadata at most `repomd.xml` is there. -/
def Fresh (dir : Loc) (s : Cache δ) : Prop :=
  ∀ l, Kept dir l → l ≠ repoMDLoc dir → s.files.data l = none

theorem Fresh.aside (h : Fresh dir s) (hst : Aside dir s t) : Fresh dir t := by
  intro l hl hne
  obtain hsame | hgone := hst.files l hl
  · rw [hsame, h l hl hne]
  · exact hgone

theorem data_cleared {p : Text} {l : Loc} (hl : locOf p <:+ l) (hkeeps : env.keeps p s l = false) :
    (cleared env p s).files.data l = none :=
  wipe_data_of_suffix hl hkeeps

/-- Nothing is left of the metadata once it is removed. -/
theorem data_removeOld (hdir : locOf (cachePath conf repo []) = dir)
    (hkeeps : ∀ p t l, Kept dir l → env.keeps p t l = false) {l : Loc} (hl : Kept dir l) :
    (removeOld env conf repo s).files.data l = none := by
  have hgone : (cleared env (solvCacheDir conf repo)
      (cleared env (repoDataDir conf repo) s)).files.data l = none := by
    obtain ⟨name, rfl, _⟩ | ⟨name, rfl⟩ := id hl
    · have hdata : (cleared env (repoDataDir conf repo) s).files.data (name :: dataLoc dir) =
          none := by
        apply data_cleared _ (hkeeps _ _ _ hl)
        rw [locOf_repoDataDir hdir]
        exact List.suffix_cons _ _
      have haside : Aside dir (cleared env (repoDataDir conf repo) s)
          (cleared env (solvCacheDir conf repo) (cleared env (repoDataDir conf repo) s)) :=
        aside_cleared _ _
      obtain hsame | hgone := haside.files _ hl
      · rw [hsame, hdata]
      · exact hgone
    · apply data_cleared _ (hkeeps _ _ _ hl)
      rw [locOf_solvCacheDir hdir]
      exact List.suffix_cons _ _
  have haside : Aside dir (cleared env (solvCacheDir conf repo)
      (cleared env (repoDataDir conf repo) s)) (removeOld env conf repo s) := aside_unlinked _ _
  obtain hsame | hgone' := haside.files _ hl
  · rw [hsame, hgone]
  · exact hgone'

theorem replaceFile_ok {src dst : Text} (h : (replaceFile env src dst).run s = .ok () t) :
    t = { s with
      files := (s.files.put (locOf dst) (s.files (locOf src))).put (locOf src) .absent } := by
  have hspec : wp (replaceFile env src dst) (fun _ t => t = { s with
      files := (s.files.put (locOf dst) (s.files (locOf src))).put (locOf src) .absent })
      (fun _ _ => True) s := by
    simp only [replaceFile, wp_bind, wp_get, wp_ite, wp_throw, wp_modify, implies_true, true_and]
    intro _
    cases env.rename src s with
    | none => rfl
    | some errno => trivial
  exact wp_ok hspec h

/-- After the old metadata is replaced only the new `repomd.xml` is there. -/
theorem replaceRepoMD_ok (hdir : locOf (cachePath conf repo []) = dir)
    (hkeeps : ∀ p t l, Kept dir l → env.keeps p t l = false)
    (h : (replaceRepoMD env conf repo).run s = .ok () t) : Fresh dir t := by
  rw [replaceRepoMD, run_bind_eq_ok] at h
  obtain ⟨_, u, hremove, hrest⟩ := h
  have hremoved : Fresh dir u := by
    cases hremove
    exact fun l hl _ => data_removeOld hdir hkeeps hl
  have hclear : Evolves (Aside dir) (modify fun s =>
      if conf.nKeepCache then s else clearedRpms env conf repo s : CacheProc δ Unit) := by
    apply evolves_modify
    intro s
    split
    · exact refl_of (Aside dir) s
    · exact aside_clearedRpms s
  obtain ⟨_, v, hcleared, hrest⟩ := run_bind_eq_ok.mp hrest
  obtain ⟨_, w, hmade, hreplace⟩ := run_bind_eq_ok.mp hrest
  have hfresh : Fresh dir w :=
    (hremoved.aside (hclear.ok hcleared)).aside ((evolves_makeDirs aside_mkdir _).ok hmade)
  rw [replaceFile_ok hreplace]
  intro l hl hne
  obtain hsame | hgone := Shrinks.drop (Kept dir) _ (locOf (tmpRepoMDFile conf repo)) l hl
  · rw [hsame, put_data_of_ne (by rwa [locOf_repoMDFile hdir]), hfresh l hl hne]
  · exact hgone

theorem downloadRepoMD_ok (hdir : locOf (cachePath conf repo []) = dir)
    (hkeeps : ∀ p t l, Kept dir l → env.keeps p t l = false) {urls : List Text}
    {cookie : List ℕ} (h : (downloadRepoMD fmt env conf repo urls cookie).run s = .ok () t) :
    Aside dir s t ∨ Fresh dir t := by
  have hfile (url : Text) :
      Evolves (Aside dir) (downloadFile env url (tmpRepoMDFile conf repo)) := by
    apply aside_downloadFile
    rw [locOf_tmpRepoMDFile hdir]
    exact not_kept_tmp
  have htouch : Evolves (Aside dir) (touchFile fmt env (marker conf repo)) := aside_touchMarker hdir
  rw [downloadRepoMD, run_bind_eq_ok] at h
  obtain ⟨_, s₁, hensure, hrest⟩ := h
  obtain ⟨_, s₂, hdownload, hrest⟩ := run_bind_eq_ok.mp hrest
  rw [run_get_bind] at hrest
  obtain ⟨nReplaceRepoMD, s₃, hcompare, hrest⟩ := run_bind_eq_ok.mp hrest
  obtain ⟨_, s₄, hend, hrest⟩ := run_bind_eq_ok.mp hrest
  have haside : Aside dir s s₄ := by
    have hensured : Aside dir s s₁ := (evolves_ensureDir aside_mkdir _).ok hensure
    have hdownloaded : Aside dir s₁ s₂ := (evolves_downloadFileFromRepo hfile _ _).ok hdownload
    have hended : Aside dir s₃ s₄ := aside_downloadEnd.ok hend
    obtain ⟨-, rfl⟩ := run_fromExcept_eq_ok.mp hcompare
    exact trans_of (Aside dir) (trans_of (Aside dir) hensured hdownloaded) hended
  by_cases hreplace : nReplaceRepoMD = true
  · simp only [hreplace, if_true] at hrest
    obtain ⟨_, s₅, hreplaced, htouched⟩ := run_bind_eq_ok.mp hrest
    exact .inr ((replaceRepoMD_ok hdir hkeeps hreplaced).aside (htouch.ok htouched))
  · simp only [hreplace] at hrest
    exact .inl (trans_of (Aside dir) haside (htouch.ok hrest))

end Steps

/-! ## The invariant along a run -/

section Keeping

variable {fmt : Formats δ κ} {part : δ → Text → δ} {env : Env δ κ} {conf : RefreshConf}
  {repo : Repo} {dir : Loc} {id : Text} {s t : Cache δ} {data : δ}

theorem WellPlaced.kept (h : WellPlaced fmt dir data) {location : Text}
    (hlisted : ListedAt fmt data location) : Kept dir (partPlace dir location) := by
  obtain ⟨name, heq, hmetalink, -⟩ := h.named location hlisted
  exact .inl ⟨name, heq, hmetalink⟩

theorem WellPlaced.ne_repoMD (h : WellPlaced fmt dir data) {location : Text}
    (hlisted : ListedAt fmt data location) : partPlace dir location ≠ repoMDLoc dir := by
  obtain ⟨-, -, -, hne⟩ := h.named location hlisted
  exact hne

theorem WellPlaced.ne_solv (hid : '/' ∉ id) (h : WellPlaced fmt dir data) {location : Text}
    (hlisted : ListedAt fmt data location) : partPlace dir location ≠ solvPlace dir id := by
  obtain ⟨name, heq, -⟩ := h.named location hlisted
  rw [heq, solvPlace_eq hid]
  simp [dataLoc, solvLoc]

theorem solvPlace_ne_repoMD (hid : '/' ∉ id) : solvPlace dir id ≠ repoMDLoc dir := by
  rw [solvPlace_eq hid]
  simp [repoMDLoc, dataLoc, solvLoc]

theorem Inv.aside (hid : '/' ∉ id) (h : Inv fmt part dir id s) (hst : Aside dir s t) :
    Inv fmt part dir id t := by
  intro data hdata hplaced
  have hcoherent := h data (hst.files.data kept_repoMD hdata) hplaced
  constructor
  · intro location hlisted x hx
    exact hcoherent.parts location hlisted x (hst.files.data (hplaced.kept hlisted) hx)
  · intro x hx
    rw [hst.made]
    exact hcoherent.solv x (hst.files.data (kept_solv hid) hx)

/-- A new `repomd.xml` is coherent with the files that are not there. -/
theorem Fresh.inv (hid : '/' ∉ id) (h : Fresh dir s) : Inv fmt part dir id s := by
  intro data _ hplaced
  constructor
  · intro location hlisted x hx
    rw [h _ (hplaced.kept hlisted) (hplaced.ne_repoMD hlisted)] at hx
    cases hx
  · intro x hx
    rw [h _ (kept_solv hid) (solvPlace_ne_repoMD hid)] at hx
    cases hx

theorem inv_removeOld (hdir : locOf (cachePath conf repo []) = dir)
    (hkeeps : ∀ p t l, Kept dir l → env.keeps p t l = false) :
    Inv fmt part dir id (removeOld env conf repo s) := by
  intro data hdata _
  rw [data_removeOld hdir hkeeps kept_repoMD] at hdata
  cases hdata

/-- The invariant holds where a run sees to the parts. -/
theorem inv_comeToParts (hid : '/' ∉ id) (hdir : locOf (cachePath conf repo []) = dir)
    (hkeeps : ∀ p t l, Kept dir l → env.keeps p t l = false) (h : Inv fmt part dir id s)
    {urls : List Text} (hrun : (comeToParts fmt env conf repo).run s = .ok urls t) :
    Inv fmt part dir id t := by
  rw [comeToParts, run_bind_eq_ok] at hrun
  obtain ⟨_, s₁, hexpire, hrest⟩ := hrun
  obtain ⟨_, s₂, hmake, hrest⟩ := run_bind_eq_ok.mp hrest
  obtain ⟨⟨urls', nNeedDownload, cookie⟩, s₃, hstart, hrest⟩ := run_bind_eq_ok.mp hrest
  have haside : Aside dir s s₃ :=
    trans_of (Aside dir) (trans_of (Aside dir) (aside_expireMetadata.ok hexpire)
      ((evolves_makeDirs aside_mkdir _).attempt.ok hmake)) ((aside_startRepoMD hdir).ok hstart)
  have hinv : Inv fmt part dir id s₃ := h.aside hid haside
  by_cases hneed : (nNeedDownload && !conf.nCacheOnly) = true
  · simp only [hneed, if_true] at hrest
    obtain ⟨_, s₄, hdownload, hreturn⟩ := run_bind_eq_ok.mp hrest
    cases hreturn
    obtain hkept | hfresh := downloadRepoMD_ok hdir hkeeps hdownload
    · exact hinv.aside hid hkept
    · exact hfresh.inv hid
  · simp only [hneed] at hrest
    cases hrest
    exact hinv

end Keeping

/-! ## Seeing to the parts -/

section Parts

/-- How the cache directory stands while the parts of `repomd.xml` are seen to, from `u` on. -/
structure Settled (fmt : Formats δ κ) (part : δ → Text → δ) (dir : Loc) (id : Text) (data : δ)
    (u s : Cache δ) : Prop where
  repoMD : ∀ x, s.files.data (repoMDLoc dir) = some x → x = data
  noDirs : ∀ l ctime, Belongs fmt dir id data l → s.files l ≠ .dir ctime
  coherent : Coherent fmt part dir id s data
  made : s.made = u.made
  solv : s.files.data (solvPlace dir id) ≠ none → u.files.data (solvPlace dir id) ≠ none
  missing : ∀ location, ListedAt fmt data location →
    s.files.data (partPlace dir location) = none → u.files.data (partPlace dir location) = none

variable {fmt : Formats δ κ} {part : δ → Text → δ} {env : Env δ κ} {conf : RefreshConf}
  {repo : Repo} {dir : Loc} {id : Text} {u s t : Cache δ} {data : δ}

theorem locOf_tmpOf_partPath (hdir : locOf (cachePath conf repo []) = dir) {location : Text}
    (hne : location ≠ []) :
    locOf (tmpOf (partPath conf repo location)) = partPlace dir (tmpOf location) := by
  have hpath : tmpOf (partPath conf repo location) = partPath conf repo (tmpOf location) := by
    obtain ⟨c, rest, rfl⟩ := List.exists_cons_of_ne_nil hne
    by_cases hslash : c = '/' <;> simp [tmpOf, partPath, hslash]
  rw [hpath, locOf_partPath hdir]

/-- A file that goes takes nothing else with it. -/
theorem Settled.drop (h : Settled fmt part dir id data u s) {l : Loc}
    (hl : ∀ location, ListedAt fmt data location → partPlace dir location ≠ l) :
    Settled fmt part dir id data u { s with files := s.files.put l .absent } := by
  have hdata {l' : Loc} {x : δ} (hx : (s.files.put l .absent).data l' = some x) :
      s.files.data l' = some x := by
    rw [put_data] at hx
    split at hx
    · cases hx
    · exact hx
  constructor
  · exact fun x hx => h.repoMD x (hdata hx)
  · intro l' ctime hkept
    simp only [Files.put]
    split
    · simp
    · exact h.noDirs l' ctime hkept
  · constructor
    · exact fun location hlisted x hx => h.coherent.parts location hlisted x (hdata hx)
    · exact fun x hx => h.coherent.solv x (hdata hx)
  · exact h.made
  · intro hsolv
    obtain ⟨x, hx⟩ := Option.ne_none_iff_exists'.mp hsolv
    exact h.solv (by simp [hdata hx])
  · intro location hlisted hnone
    rw [put_data_of_ne (hl location hlisted)] at hnone
    exact h.missing location hlisted hnone

/-- A part that is saved is of this `repomd.xml`. -/
theorem Settled.save (hid : '/' ∉ id) (hplaced : WellPlaced fmt dir data)
    (h : Settled fmt part dir id data u s) {location : Text} (hlisted : ListedAt fmt data location)
    (ctime : ℤ) :
    Settled fmt part dir id data u { s with
      files := s.files.put (partPlace dir location) (.file (part data location) ctime) } := by
  constructor
  · intro x hx
    rw [put_data_of_ne (hplaced.ne_repoMD hlisted).symm] at hx
    exact h.repoMD x hx
  · intro l' ctime' hkept
    simp only [Files.put]
    split
    · simp
    · exact h.noDirs l' ctime' hkept
  · constructor
    · intro other hother x hx
      rw [put_data] at hx
      split at hx
      · rename_i hsame
        rw [hplaced.distinct other location hother hlisted hsame]
        exact (Option.some.inj hx).symm
      · exact h.coherent.parts other hother x hx
    · intro x hx
      rw [put_data_of_ne (hplaced.ne_solv hid hlisted).symm] at hx
      exact h.coherent.solv x hx
  · exact h.made
  · intro hsolv
    rw [put_data_of_ne (hplaced.ne_solv hid hlisted).symm] at hsolv
    exact h.solv hsolv
  · intro other hother hnone
    rw [put_data] at hnone
    split at hnone
    · cases hnone
    · exact h.missing other hother hnone

theorem Settled.log (h : Settled fmt part dir id data u s) (downloads : List Text) :
    Settled fmt part dir id data u { s with downloads := downloads } :=
  ⟨h.repoMD, h.noDirs, ⟨h.coherent.parts, h.coherent.solv⟩, h.made, h.solv, h.missing⟩

theorem Settled.cleared (h : Settled fmt part dir id data u s) {p : Text}
    (hl : ∀ location, ListedAt fmt data location → ¬ locOf p <:+ partPlace dir location) :
    Settled fmt part dir id data u (cleared env p s) := by
  constructor
  · exact fun x hx => h.repoMD x (data_of_wipe hx)
  · intro l ctime hkept
    simp only [RepoCache.cleared, Files.wipe]
    split
    · simp
    · exact h.noDirs l ctime hkept
  · constructor
    · exact fun location hlisted x hx => h.coherent.parts location hlisted x (data_of_wipe hx)
    · exact fun x hx => h.coherent.solv x (data_of_wipe hx)
  · exact h.made
  · intro hsolv
    obtain ⟨x, hx⟩ := Option.ne_none_iff_exists'.mp hsolv
    exact h.solv (by simp [data_of_wipe hx])
  · intro location hlisted hnone
    rw [RepoCache.cleared, wipe_data_of_not (hl location hlisted)] at hnone
    exact h.missing location hlisted hnone

/-- What is reported as missing is not there. -/
theorem data_of_access (hhonest : ∀ p t, env.stat p t = some 2 → t.files.data (locOf p) = none)
    {p : Text} (h : env.access p s = some 2) : s.files.data (locOf p) = none := by
  simp only [Env.access] at h
  cases hstat : env.stat p s with
  | some errno =>
      rw [hstat] at h
      cases h
      exact hhonest p s hstat
  | none =>
      rw [hstat] at h
      cases hentry : s.files (locOf p) with
      | absent => simp [Files.data, hentry, Entry.data]
      | dir ctime => simp [hentry] at h
      | file x ctime => simp [hentry] at h

/-- What holds of a run however it ends. -/
abbrev Keeps (fmt : Formats δ κ) (part : δ → Text → δ) (dir : Loc) (id : Text) (data : δ)
    (u : Cache δ) {α : Type} (x : CacheProc δ α) (s : Cache δ) : Prop :=
  wp x (fun _ t => Settled fmt part dir id data u t) (fun _ t => Settled fmt part dir id data u t) s

theorem settled_downloadFile (hid : '/' ∉ id) (hdir : locOf (cachePath conf repo []) = dir)
    (hplaced : WellPlaced fmt dir data) {location : Text} (hlisted : ListedAt fmt data location)
    {url : Text} (hserved : ∀ t data' chmod, env.fetch url t = .saved data' chmod →
      data' = part data location) (h : Settled fmt part dir id data u s) :
    Keeps fmt part dir id data u (downloadFile env url (partPath conf repo location)) s := by
  have hlogged := h.log (s.downloads ++ [url])
  have hdropped := hlogged.drop (l := locOf (tmpOf (partPath conf repo location))) (by
    intro other hother
    rw [locOf_tmpOf_partPath hdir hlisted.1]
    exact hplaced.apart other location hother hlisted)
  simp only [Keeps, downloadFile, wp_bind, wp_modify, wp_ite, wp_throw, wp_get]
  refine ⟨fun _ => hlogged, fun _ => ?_⟩
  cases hfetch : env.fetch url { s with downloads := s.downloads ++ [url] } with
  | refused e => exact hlogged
  | failed e => exact hdropped
  | saved data' chmod =>
      obtain rfl := hserved _ _ _ hfetch
      have hsaved := hdropped.save hid hplaced hlisted env.now
      rw [← locOf_partPath hdir] at hsaved
      simp only [wp_bind, wp_modify]
      cases chmod with
      | none => exact hsaved
      | some errno => exact hsaved

theorem settled_tryBaseUrls (hid : '/' ∉ id) (hdir : locOf (cachePath conf repo []) = dir)
    (hplaced : WellPlaced fmt dir data) {location : Text} (hlisted : ListedAt fmt data location)
    {urls : List Text} (hserved : ∀ url ∈ urls, ∀ t data' chmod,
      env.fetch (joinPath [url, location]) t = .saved data' chmod → data' = part data location)
    (h : Settled fmt part dir id data u s) :
    Keeps fmt part dir id data u
      (tryBaseUrls env location (partPath conf repo location) urls) s := by
  induction urls generalizing s with
  | nil => exact h
  | cons url urls ih =>
      have hfirst {s : Cache δ} (h : Settled fmt part dir id data u s) :
          Keeps fmt part dir id data u
            (downloadFile env (joinPath [url, location]) (partPath conf repo location)) s :=
        settled_downloadFile hid hdir hplaced hlisted (hserved url List.mem_cons_self) h
      cases urls with
      | nil => exact hfirst h
      | cons url' urls =>
          rw [tryBaseUrls, Keeps, wp_orElse]
          apply wp_mono (hfirst h)
          · exact fun _ _ hsettled => hsettled
          · exact fun _ _ hsettled =>
              ih (fun url hurl => hserved url (List.mem_cons_of_mem _ hurl)) hsettled
          · simp

theorem settled_downloadFileFromRepo (hid : '/' ∉ id)
    (hdir : locOf (cachePath conf repo []) = dir) (hplaced : WellPlaced fmt dir data)
    {location : Text} (hlisted : ListedAt fmt data location) {urls : List Text}
    (hserved : ∀ url ∈ sources urls location, ∀ t data' chmod,
      env.fetch url t = .saved data' chmod → data' = part data location)
    (h : Settled fmt part dir id data u s) :
    Keeps fmt part dir id data u
      (downloadFileFromRepo env urls location (partPath conf repo location)) s := by
  simp only [Keeps, downloadFileFromRepo, wp_bind, wp_ite, wp_throw]
  refine ⟨fun _ => h, fun _ => ⟨?_, ?_⟩⟩
  · rintro rfl
    exact settled_downloadFile hid hdir hplaced hlisted (hserved location (by simp [sources])) h
  · intro hurls
    apply settled_tryBaseUrls hid hdir hplaced hlisted _ h
    intro url hurl
    apply hserved
    simp only [sources, hurls, if_false]
    exact List.mem_map_of_mem hurl

/-- A part that is missing is the one that `repomd.xml` means, once it is downloaded. -/
theorem settled_downloadRepoMDPart (hid : '/' ∉ id)
    (hdir : locOf (cachePath conf repo []) = dir)
    (hhonest : ∀ p t, env.stat p t = some 2 → t.files.data (locOf p) = none)
    (hplaced : WellPlaced fmt dir data) {location : Text}
    (hlisted : location ≠ [] → ListedAt fmt data location) {urls : List Text}
    (hserved : u.files.data (partPlace dir location) = none → ∀ url ∈ sources urls location,
      ∀ t data' chmod, env.fetch url t = .saved data' chmod → data' = part data location)
    (h : Settled fmt part dir id data u s) :
    Keeps fmt part dir id data u (downloadRepoMDPart env conf repo urls location) s := by
  simp only [Keeps, downloadRepoMDPart, wp_bind, wp_ite, wp_throw, wp_get]
  refine ⟨fun _ => h, fun hne => ?_⟩
  cases haccess : env.access (partPath conf repo location) s with
  | none => exact h
  | some errno =>
      simp only [wp_bind, wp_ite, wp_throw]
      refine ⟨fun _ => h, fun herrno => ?_⟩
      obtain rfl : errno = 2 := by simpa using herrno
      have hgone : s.files.data (partPlace dir location) = none := by
        rw [← locOf_partPath hdir]
        exact data_of_access hhonest haccess
      exact settled_downloadFileFromRepo hid hdir hplaced (hlisted hne)
        (hserved (h.missing location (hlisted hne) hgone)) h

theorem location_selected {kind : Part} {location : Text}
    (h : (kind, location) ∈ selectedParts fmt repo data) :
    fmt.location data kind = some location := by
  have hwanted {skip : Bool} {kind' : Part}
      (h : (kind, location) ∈ wantedPart skip kind' (fmt.location data kind')) :
      fmt.location data kind = some location := by
    simp only [wantedPart] at h
    split at h
    · obtain ⟨rfl, rfl⟩ := Prod.mk.inj (List.mem_singleton.mp h)
      cases hlocation : fmt.location data kind with
      | none => simp_all
      | some location => rfl
    · cases h
  simp only [selectedParts, parseData] at h
  cases hprimary : fmt.location data .primary with
  | none => simp [hprimary] at h
  | some primary =>
      simp only [hprimary, wantedParts, List.mem_cons, List.mem_append] at h
      obtain heq | (h | h) | h := h
      · obtain ⟨rfl, rfl⟩ := Prod.mk.inj heq
        exact hprimary
      · exact hwanted h
      · exact hwanted h
      · exact hwanted h

theorem listedAt_selected {kind : Part} {location : Text}
    (h : (kind, location) ∈ selectedParts fmt repo data) (hne : location ≠ []) :
    ListedAt fmt data location := ⟨hne, kind, location_selected h⟩

/-- A file that can be read holds what was read. -/
theorem data_of_readFile {p : Text} {x : δ} (hnoDir : ∀ ctime, s.files (locOf p) ≠ .dir ctime)
    (h : readFile fmt env p s = .ok x) : s.files.data (locOf p) = some x := by
  simp only [readFile] at h
  cases hopen : env.fopen p s with
  | some errno => simp [hopen] at h
  | none =>
      rw [hopen] at h
      cases hentry : s.files (locOf p) with
      | absent => simp [hentry] at h
      | dir ctime => exact absurd hentry (hnoDir ctime)
      | file y ctime =>
          rw [hentry] at h
          cases h
          simp [Files.data, hentry, Entry.data]

/-- The parts that are wanted are seen to, one after the other. -/
theorem settled_ensureRepoMDParts (hid : '/' ∉ id)
    (hdir : locOf (cachePath conf repo []) = dir)
    (hhonest : ∀ p t, env.stat p t = some 2 → t.files.data (locOf p) = none)
    (hplaced : WellPlaced fmt dir data) {urls : List Text} {parts : List (Part × Text)}
    (hparts : parts ⊆ selectedParts fmt repo data)
    (hserved : ∀ kind location, (kind, location) ∈ selectedParts fmt repo data →
      u.files.data (partPlace dir location) = none → ∀ url ∈ sources urls location,
        ∀ t data' chmod, env.fetch url t = .saved data' chmod → data' = part data location)
    (h : Settled fmt part dir id data u s) :
    Keeps fmt part dir id data u (ensureRepoMDParts env conf repo urls parts) s := by
  have hloop (parts : List (Part × Text)) (hparts : parts ⊆ selectedParts fmt repo data)
      (s : Cache δ) (h : Settled fmt part dir id data u s) : Keeps fmt part dir id data u
        (parts.mapM fun part => downloadRepoMDPart env conf repo urls part.2) s := by
    induction parts generalizing s with
    | nil => exact h
    | cons p parts ih =>
        obtain ⟨hp, hparts⟩ := List.cons_subset.mp hparts
        simp only [Keeps, List.mapM_cons, wp_bind, wp_pure]
        apply wp_mono (settled_downloadRepoMDPart hid hdir hhonest hplaced
          (listedAt_selected hp) (hserved p.1 p.2 hp) h)
        · exact fun _ t ht => ih hparts t ht
        · exact fun _ _ ht => ht
  simp only [Keeps, ensureRepoMDParts, wp_bind, wp_pure]
  exact hloop parts hparts s h

theorem downloadRepoMDPart_ne_nil {urls : List Text} {location : Text}
    (h : (downloadRepoMDPart env conf repo urls location).run s = .ok () t) : location ≠ [] := by
  rintro rfl
  cases h

theorem ensureRepoMDParts_ne_nil {urls : List Text} {parts : List (Part × Text)}
    (h : (ensureRepoMDParts env conf repo urls parts).run s = .ok () t) :
    ∀ p ∈ parts, p.2 ≠ [] := by
  obtain ⟨results, s₁, hloop, -⟩ := run_bind_eq_ok.mp h
  clear h
  induction parts generalizing s results s₁ with
  | nil => simp
  | cons p parts ih =>
      rw [List.mapM_cons] at hloop
      obtain ⟨_, s₂, hp, hrest⟩ := run_bind_eq_ok.mp hloop
      obtain ⟨results', s₃, hparts, -⟩ := run_bind_eq_ok.mp hrest
      rw [List.forall_mem_cons]
      exact ⟨downloadRepoMDPart_ne_nil hp, ih results' s₃ hparts⟩

/-- Where `TDNFGetRepoMD` ends, the parts that are wanted are there. -/
theorem settled_useRepoMD (hid : '/' ∉ id) (hdir : locOf (cachePath conf repo []) = dir)
    (hhonest : ∀ p t, env.stat p t = some 2 → t.files.data (locOf p) = none)
    (hplaced : WellPlaced fmt dir data) {urls : List Text} {parts : List (Part × Text)}
    (hserved : ∀ kind location, (kind, location) ∈ selectedParts fmt repo data →
      u.files.data (partPlace dir location) = none → ∀ url ∈ sources urls location,
        ∀ t data' chmod, env.fetch url t = .saved data' chmod → data' = part data location)
    (h : Settled fmt part dir id data u s)
    (hrun : (useRepoMD fmt env conf repo urls).run s = .ok parts t) :
    parts = selectedParts fmt repo data ∧ (∀ p ∈ parts, p.2 ≠ []) ∧
      Settled fmt part dir id data u t := by
  rw [useRepoMD, run_get_bind] at hrun
  obtain ⟨md, s₁, hparse, hrest⟩ := run_bind_eq_ok.mp hrun
  obtain ⟨hparse, rfl⟩ := run_fromExcept_eq_ok.mp hparse
  obtain ⟨_, s₂, hensure, hreturn⟩ := run_bind_eq_ok.mp hrest
  cases hreturn
  have hselected : wantedParts repo md = selectedParts fmt repo data := by
    simp only [parseRepoMD] at hparse
    cases hread : readFile fmt env (repoMDFile conf repo) s₁ with
    | error errno =>
        simp only [hread] at hparse
        split at hparse <;> cases hparse
    | ok x =>
        have hx : s₁.files.data (repoMDLoc dir) = some x := by
          rw [← locOf_repoMDFile hdir]
          apply data_of_readFile _ hread
          intro ctime
          rw [locOf_repoMDFile hdir]
          exact h.noDirs _ ctime .repoMD
        obtain rfl := h.repoMD x hx
        simp only [hread] at hparse
        simp [selectedParts, hparse]
  refine ⟨hselected, ensureRepoMDParts_ne_nil hensure, ?_⟩
  rw [hselected] at hensure
  have hkeeps : Keeps fmt part dir id data u
      (ensureRepoMDParts env conf repo urls (selectedParts fmt repo data)) s₁ :=
    settled_ensureRepoMDParts hid hdir hhonest hplaced (List.Subset.refl _) hserved h
  exact wp_ok hkeeps hensure

end Parts

/-! ## Loading -/

section Load

/-- No file changes. -/
def SameData (s t : Cache δ) : Prop := ∀ l, t.files.data l = s.files.data l

instance : Std.Refl (SameData : Cache δ → Cache δ → Prop) := ⟨fun _ _ => rfl⟩

instance : IsTrans (Cache δ) SameData := ⟨fun _ _ _ h h' l => (h' l).trans (h l)⟩

variable {fmt : Formats δ κ} {part : δ → Text → δ} {env : Env δ κ} {conf : RefreshConf}
  {repo : Repo} {dir : Loc} {u s t : Cache δ} {data : δ} {content : κ}

theorem useMetaDataCache_ok {cookie : List ℕ} {result : Option κ}
    (h : (useMetaDataCache fmt env conf repo cookie).run s = .ok result t) :
    t = s ∧ ∀ content, result = some content → ∃ x,
      readFile fmt env (solvFilePath conf repo) s = .ok x ∧ fmt.addSolv x = some content := by
  rw [useMetaDataCache, run_get_bind] at h
  cases hread : readFile fmt env (solvFilePath conf repo) s with
  | error errno =>
      rw [hread] at h
      cases h
      exact ⟨rfl, fun _ heq => by cases heq⟩
  | ok x =>
      by_cases hcookie : fmt.solvCookie x = some cookie
      · cases hadd : fmt.addSolv x with
        | none =>
            simp only [hread, hcookie, ne_eq, not_true_eq_false, if_false, hadd] at h
            cases h
        | some content =>
            simp only [hread, hcookie, ne_eq, not_true_eq_false, if_false, hadd] at h
            cases h
            exact ⟨rfl, fun _ heq => ⟨x, rfl, heq ▸ hadd⟩⟩
      · simp only [hread, hcookie, ne_eq, not_false_eq_true, if_true] at h
        cases h

/-- A `.solv` file that is made leaves the other files as they are. -/
theorem createMetaDataCache_ok {cookie : List ℕ} {parts : List Part}
    (h : (createMetaDataCache fmt env conf repo content cookie parts).run s = .ok () t) :
    t.made = parts ∧ ∀ l, t.files.data l =
      if l = locOf (solvFilePath conf repo) then some (fmt.solvFile content cookie)
      else s.files.data l := by
  have hmake (u : Cache δ) (hu : SameData s u)
      (hrest : (writeMetaDataCache fmt env conf repo content cookie parts).run u = .ok () t) :
      t.made = parts ∧ ∀ l, t.files.data l =
        if l = locOf (solvFilePath conf repo) then some (fmt.solvFile content cookie)
        else s.files.data l := by
    rw [writeMetaDataCache, run_get_bind] at hrest
    cases hwrite : env.writeSolv u with
    | some e =>
        rw [hwrite] at hrest
        cases hrest
    | none =>
        rw [hwrite] at hrest
        cases hrest
        refine ⟨rfl, fun l => ?_⟩
        rw [put_data, hu l]
        rfl
  rw [createMetaDataCache, run_get_bind] at h
  cases haccess : env.access (solvCacheDir conf repo) s with
  | none =>
      rw [haccess] at h
      exact hmake s (refl_of SameData s) h
  | some errno =>
      simp only [haccess] at h
      by_cases herrno : errno = 2
      · simp only [herrno, ne_eq, not_true_eq_false, if_false] at h
        obtain ⟨_, u, hensure, hrest⟩ := run_bind_eq_ok.mp h
        have hmkdir (s : Cache δ) (l : Loc) :
            SameData s { s with files := s.files.mkdir l env.now } := fun _ => mkdir_data
        exact hmake u ((evolves_ensureDir hmkdir _).ok hensure) hrest
      · simp only [herrno, ne_eq, not_false_eq_true, if_true] at h
        cases h

theorem readMetadata_ok {p : Text} {x : δ} (hnoDir : ∀ ctime, s.files (locOf p) ≠ .dir ctime)
    (h : readMetadata fmt env p s = .ok x) : s.files.data (locOf p) = some x := by
  apply data_of_readFile hnoDir
  simp only [readMetadata] at h
  cases hread : readFile fmt env p s with
  | error errno =>
      rw [hread] at h
      cases h
  | ok y =>
      rw [hread] at h
      cases h
      rfl

theorem Settled.readRepoMD (hdir : locOf (cachePath conf repo []) = dir)
    (h : Settled fmt part dir repo.pszId data u s) {x : δ}
    (hread : readFile fmt env (repoMDFile conf repo) s = .ok x) : x = data := by
  apply h.repoMD
  rw [← locOf_repoMDFile hdir]
  apply data_of_readFile _ hread
  intro ctime
  rw [locOf_repoMDFile hdir]
  exact h.noDirs _ ctime .repoMD

/-- Reading the parts in place is loading them from scratch. -/
theorem readYumRepo_ok (hdir : locOf (cachePath conf repo []) = dir)
    (hplaced : WellPlaced fmt dir data) (h : Settled fmt part dir repo.pszId data u s)
    {parts : List (Part × Text)} (hparts : parts ⊆ selectedParts fmt repo data)
    (hne : ∀ p ∈ parts, p.2 ≠ []) (hread : readYumRepo fmt env conf repo parts s = .ok content) :
    loadKinds fmt part data (parts.map Prod.fst) = .ok content := by
  have hloop (parts : List (Part × Text)) (hparts : parts ⊆ selectedParts fmt repo data)
      (hne : ∀ p ∈ parts, p.2 ≠ []) (start : κ) (hread : parts.foldlM (fun content part => do
        fmt.loadPart part.1 content (← readMetadata fmt env (partPath conf repo part.2) s))
          start = .ok content) :
      (parts.map Prod.fst).foldlM (fun content kind =>
        fmt.loadPart kind content (part data ((fmt.location data kind).getD []))) start =
          .ok content := by
    induction parts generalizing start with
    | nil => exact hread
    | cons p parts ih =>
        obtain ⟨hp, hparts⟩ := List.cons_subset.mp hparts
        obtain ⟨hpne, hne⟩ := List.forall_mem_cons.mp hne
        rw [List.foldlM_cons] at hread
        obtain ⟨next, hnext, hread⟩ := exists_of_bind_ok hread
        obtain ⟨y, hy, hload⟩ := exists_of_bind_ok hnext
        have hlisted : ListedAt fmt data p.2 := listedAt_selected hp hpne
        have hdata : s.files.data (partPlace dir p.2) = some y := by
          rw [← locOf_partPath hdir]
          apply readMetadata_ok _ hy
          intro ctime
          rw [locOf_partPath hdir]
          exact h.noDirs _ ctime (.part hlisted)
        obtain rfl := h.coherent.parts p.2 hlisted y hdata
        rw [List.map_cons, List.foldlM_cons, location_selected hp, Option.getD_some, hload]
        exact ih hparts hne next hread
  obtain ⟨x, hx, hload⟩ := exists_of_bind_ok hread
  obtain ⟨start, hstart, hparts'⟩ := exists_of_bind_ok hload
  have hx' : s.files.data (repoMDLoc dir) = some x := by
    rw [← locOf_repoMDFile hdir]
    apply readMetadata_ok _ hx
    intro ctime
    rw [locOf_repoMDFile hdir]
    exact h.noDirs _ ctime .repoMD
  obtain rfl := h.repoMD x hx'
  rw [loadKinds, hstart]
  exact hloop parts hparts hne start hparts'

/-- What the end of `TDNFInitRepo` loads is what loading from scratch gives. -/
theorem loadRepo_ok (hid : '/' ∉ repo.pszId) (hdir : locOf (cachePath conf repo []) = dir)
    (hsolv : FaithfulSolv fmt) (hplaced : WellPlaced fmt dir data)
    (h : Settled fmt part dir repo.pszId data u s)
    (hselection : u.files.data (solvPlace dir repo.pszId) ≠ none →
      u.made = (selectedParts fmt repo data).map Prod.fst)
    (hne : ∀ p ∈ selectedParts fmt repo data, p.2 ≠ [])
    (hrun : (loadRepo fmt env conf repo (selectedParts fmt repo data)).run s = .ok content t) :
    t.files.data (repoMDLoc dir) = some data ∧ fromScratch fmt part repo data = .ok content ∧
      Inv fmt part dir repo.pszId t := by
  rw [loadRepo, run_get_bind] at hrun
  obtain ⟨cookie, s₁, hcalculate, huse⟩ := run_bind_eq_ok.mp hrun
  obtain ⟨hcookie, rfl⟩ := run_fromExcept_eq_ok.mp hcalculate
  obtain ⟨result, s₂, hlookup, hrest⟩ := run_bind_eq_ok.mp huse
  obtain ⟨rfl, hcached⟩ := useMetaDataCache_ok hlookup
  have hrepoMD : s₂.files.data (repoMDLoc dir) = some data ∧ cookie = fmt.cookie data := by
    simp only [cookieForFile] at hcookie
    cases hread : readFile fmt env (repoMDFile conf repo) s₂ with
    | error errno =>
        rw [hread] at hcookie
        cases hcookie
    | ok x =>
        rw [hread] at hcookie
        cases hcookie
        obtain rfl := h.readRepoMD hdir hread
        refine ⟨?_, rfl⟩
        rw [← locOf_repoMDFile hdir]
        apply data_of_readFile _ hread
        intro ctime
        rw [locOf_repoMDFile hdir]
        exact h.noDirs _ ctime .repoMD
  obtain ⟨hdata, rfl⟩ := hrepoMD
  cases result with
  | some loaded =>
      cases hrest
      obtain ⟨x, hread, hadd⟩ := hcached content rfl
      have hx : t.files.data (solvPlace dir repo.pszId) = some x := by
        rw [← locOf_solvFilePath hdir]
        apply data_of_readFile _ hread
        intro ctime
        rw [locOf_solvFilePath hdir]
        exact h.noDirs _ ctime .solv
      have hthere : u.files.data (solvPlace dir repo.pszId) ≠ none := by
        apply h.solv
        rw [hx]
        exact Option.some_ne_none x
      obtain ⟨content', rfl, hload⟩ := h.coherent.solv x hx
      obtain rfl : content' = content := by
        rw [hsolv.content] at hadd
        exact Option.some.inj hadd
      refine ⟨hdata, ?_, ?_⟩
      · rw [fromScratch, ← hselection hthere, ← h.made]
        exact hload
      · intro data' hdata' _
        rw [hdata] at hdata'
        cases hdata'
        exact h.coherent
  | none =>
      rw [run_get_bind] at hrest
      obtain ⟨loaded, s₃, hreload, hcreating⟩ := run_bind_eq_ok.mp hrest
      obtain ⟨hread, rfl⟩ := run_fromExcept_eq_ok.mp hreload
      obtain ⟨_, s₄, hcreate, hreturn⟩ := run_bind_eq_ok.mp hcreating
      cases hreturn
      obtain ⟨hmade, hfiles⟩ := createMetaDataCache_ok hcreate
      rw [locOf_solvFilePath hdir] at hfiles
      have hload : fromScratch fmt part repo data = .ok content :=
        readYumRepo_ok hdir hplaced h (List.Subset.refl _) hne hread
      have hdata' : t.files.data (repoMDLoc dir) = some data := by
        rw [hfiles, if_neg (solvPlace_ne_repoMD hid).symm, hdata]
      refine ⟨hdata', hload, ?_⟩
      intro data' hsome _
      rw [hdata'] at hsome
      cases hsome
      constructor
      · intro location hlisted x hx
        rw [hfiles, if_neg (hplaced.ne_solv hid hlisted)] at hx
        exact h.coherent.parts location hlisted x hx
      · intro x hx
        rw [hfiles, if_pos rfl] at hx
        cases hx
        refine ⟨content, rfl, ?_⟩
        rw [hmade]
        exact hload

end Load

/-! ## Runs -/

section Runs

variable {fmt : Formats δ κ} {part : δ → Text → δ} {env : Env δ κ} {conf : RefreshConf}
  {repo : Repo} {dir : Loc} {id : Text} {s t u : Cache δ} {content : κ}

/-- A run that loads metadata comes to its parts and loads what is there then. -/
theorem initRepo_ok (hmeta : repo.nHasMetaData = true)
    (hexpire : (expireMetadata env conf repo).run s = .ok () u)
    (h : (initRepo fmt env conf repo).run u = .ok content t) :
    ∃ urls v parts w w', (comeToParts fmt env conf repo).run s = .ok urls v ∧
      (useRepoMD fmt env conf repo urls).run v = .ok parts w ∧
      (w' = w ∨ w' = cleared env (tmpDir conf repo) w) ∧
      (loadRepo fmt env conf repo parts).run w' = .ok content t := by
  obtain ⟨t', hbody, rfl⟩ := run_finishing_eq_ok.mp h
  simp only [hmeta, if_true] at hbody
  obtain ⟨made, s₁, hmake, hbody₁⟩ := run_bind_eq_ok.mp hbody
  obtain ⟨parts, w', hget, hload⟩ := run_bind_eq_ok.mp hbody₁
  rw [getRepoMD] at hget
  obtain ⟨⟨urls, nNeedDownload, cookie⟩, s₂, hstart, hget₁⟩ := run_bind_eq_ok.mp hget
  by_cases hneed : (nNeedDownload && !conf.nCacheOnly) = true
  · simp only [hneed, if_true] at hget₁
    obtain ⟨w, huses, hw⟩ := run_finishing_eq_ok.mp hget₁
    obtain ⟨_, v, hdownload, huse⟩ := run_bind_eq_ok.mp huses
    refine ⟨urls, v, parts, w, w', ?_, huse, .inr hw, hload⟩
    rw [comeToParts, run_bind_ok hexpire, run_bind_ok hmake, run_bind_ok hstart]
    simp only [hneed, if_true]
    rw [run_bind_ok hdownload]
    rfl
  · simp only [hneed] at hget₁
    refine ⟨urls, s₂, parts, w', w', ?_, hget₁, .inl rfl, hload⟩
    rw [comeToParts, run_bind_ok hexpire, run_bind_ok hmake, run_bind_ok hstart]
    simp only [hneed]
    rfl

/-- No part lies where `repomd.xml` is kept while it is downloaded. -/
theorem not_tmpLoc_suffix (name : Name) : ¬ tmpLoc dir <:+ name :: dataLoc dir := by
  intro h
  obtain heq | h := List.suffix_cons_iff.mp h
  · have hlength := congrArg List.length heq
    simp [tmpLoc, dataLoc] at hlength
  · obtain heq | h := List.suffix_cons_iff.mp h
    · simp [tmpLoc] at heq
    · have hlength := h.length_le
      simp only [tmpLoc, List.length_cons] at hlength
      omega

/-- A run that loads metadata loads what the `repomd.xml` says that it comes to its parts with. -/
theorem loaded_parts {run : Run δ κ} (hsolv : FaithfulSolv fmt)
    (hinv : Inv fmt part dir id s) (hguard : Guard fmt part dir id s run)
    (hmeta : run.repo.nHasMetaData = true)
    (hexpire : (expireMetadata run.env run.conf run.repo).run s = .ok () u)
    (h : (initRepo fmt run.env run.conf run.repo).run u = .ok content t) :
    ∃ urls v data, (comeToParts fmt run.env run.conf run.repo).run s = .ok urls v ∧
      v.files.data (repoMDLoc dir) = some data ∧ t.files.data (repoMDLoc dir) = some data ∧
      fromScratch fmt part run.repo data = .ok content ∧ Inv fmt part dir id t := by
  obtain ⟨urls, v, parts, w, w', hcome, huse, hw, hload⟩ := initRepo_ok hmeta hexpire h
  obtain rfl := hguard.sameId
  have hid := hguard.idName
  have hdir := hguard.place
  have hinv' : Inv fmt part dir run.repo.pszId v :=
    inv_comeToParts hid hdir hguard.removable hinv hcome
  obtain ⟨data, hdata⟩ : ∃ data, v.files.data (repoMDLoc dir) = some data := by
    rw [useRepoMD, run_get_bind] at huse
    obtain ⟨md, s₁, hparsing, -⟩ := run_bind_eq_ok.mp huse
    obtain ⟨hparse, -⟩ := run_fromExcept_eq_ok.mp hparsing
    simp only [parseRepoMD] at hparse
    cases hread : readFile fmt run.env (repoMDFile run.conf run.repo) v with
    | error errno =>
        simp only [hread] at hparse
        split at hparse <;> cases hparse
    | ok data =>
        refine ⟨data, ?_⟩
        rw [← locOf_repoMDFile hdir]
        apply data_of_readFile _ hread
        intro ctime
        rw [locOf_repoMDFile hdir]
        exact hguard.noDir hmeta urls v hcome ctime
  have hloadable := hguard.loadable hmeta urls v hcome data hdata
  have hsettled : Settled fmt part dir run.repo.pszId data v v := by
    refine ⟨?_, hloadable.noDirs, hinv' data hdata hloadable.placed, rfl, id, fun _ _ => id⟩
    intro x hx
    rw [hdata] at hx
    exact (Option.some.inj hx).symm
  obtain ⟨rfl, hne, hsettled⟩ := settled_useRepoMD hid hdir hguard.honest hloadable.placed
    hloadable.served hsettled huse
  have hsettled' : Settled fmt part dir run.repo.pszId data v w' := by
    obtain rfl | rfl := hw
    · exact hsettled
    · apply hsettled.cleared
      intro location hlisted hsuffix
      have htmp : locOf (tmpDir run.conf run.repo) = tmpLoc dir :=
        locOf_cachePath hdir ⟨_, isName_tmp⟩
      obtain ⟨name, hplace, -⟩ := hloadable.placed.named location hlisted
      rw [htmp, hplace] at hsuffix
      exact not_tmpLoc_suffix name hsuffix
  obtain ⟨hdata', hscratch, hinv''⟩ := loadRepo_ok hid hdir hsolv hloadable.placed hsettled'
    hloadable.selection hne hload
  exact ⟨urls, v, data, hcome, hdata, hdata', hscratch, hinv''⟩

/-- A run that loads metadata loads what `repomd.xml` says, and keeps the invariant. -/
theorem loaded_initRepo {run : Run δ κ} (hsolv : FaithfulSolv fmt)
    (hinv : Inv fmt part dir id s) (hguard : Guard fmt part dir id s run)
    (hmeta : run.repo.nHasMetaData = true)
    (hexpire : (expireMetadata run.env run.conf run.repo).run s = .ok () u)
    (h : (initRepo fmt run.env run.conf run.repo).run u = .ok content t) :
    (∃ data, t.files.data (repoMDLoc dir) = some data ∧
      fromScratch fmt part run.repo data = .ok content) ∧ Inv fmt part dir id t := by
  obtain ⟨urls, v, data, -, -, hdata, hscratch, hinv'⟩ :=
    loaded_parts hsolv hinv hguard hmeta hexpire h
  exact ⟨⟨data, hdata, hscratch⟩, hinv'⟩

theorem skipUnavailable_ok {repo repo' : Repo} {result : Except TdnfError κ}
    (h : (skipUnavailable repo result).run s = .ok (repo', some content) t) :
    result = .ok content ∧ t = s := by
  cases result with
  | ok loaded =>
      cases h
      exact ⟨rfl, rfl⟩
  | error e =>
      simp only [skipUnavailable] at h
      split at h <;> cases h

theorem finalState_skipUnavailable (repo : Repo) (result : Except TdnfError κ) (s : Cache δ) :
    finalState ((skipUnavailable repo result).run s) = s := by
  cases result with
  | ok content => rfl
  | error e =>
      simp only [skipUnavailable]
      split <;> rfl

/-- Every run keeps the invariant, however it ends. -/
theorem inv_step (hsolv : FaithfulSolv fmt) {run : Run δ κ} (hinv : Inv fmt part dir id s)
    (hguard : Guard fmt part dir id s run) (h : step fmt s run = some t) :
    Inv fmt part dir id t := by
  obtain rfl := Option.some.inj h
  have hid := hguard.idName
  cases hexpire : (expireMetadata run.env run.conf run.repo).run s with
  | error e u =>
      rw [refreshRepo, run_bind_error hexpire]
      exact hinv.aside hid (aside_expireMetadata.error hexpire)
  | ok _ u =>
      have hinv' : Inv fmt part dir id u := hinv.aside hid (aside_expireMetadata.ok hexpire)
      rw [refreshRepo, run_bind_ok hexpire]
      simp only [if_true]
      rw [finalState_bind_keeping (finalState_skipUnavailable run.repo), finalState_attempt]
      cases hinit : (initRepo fmt run.env run.conf run.repo).run u with
      | ok content t =>
          by_cases hmeta : run.repo.nHasMetaData = true
          · exact (loaded_initRepo hsolv hinv hguard hmeta hexpire hinit).2
          · obtain ⟨w, hbody, rfl⟩ := run_finishing_eq_ok.mp hinit
            simp only [hmeta] at hbody
            obtain ⟨-, rfl⟩ := run_fromExcept_eq_ok.mp hbody
            exact hinv'
      | error e t =>
          obtain ⟨w, rfl⟩ := run_finishing_eq_error hinit
          exact inv_removeOld hguard.place hguard.removable

theorem inv_emptyCache : Inv fmt part dir id emptyCache :=
  fun _ hdata => by cases hdata

/-- Where the runs before and this one meet the condition, the solv cache is transparent. -/
theorem refreshRepo_transparent (hsolv : FaithfulSolv fmt)
    (hs : Reaches (step fmt) (Guard fmt part dir id) emptyCache s) (run : Run δ κ)
    (hguard : Guard fmt part dir id s run) : Transparent fmt part dir s run := by
  have hinv : Inv fmt part dir id s :=
    hs.invariant inv_emptyCache fun _ _ _ h hguard hstep => inv_step hsolv h hguard hstep
  constructor
  · intro repo content t h hmeta
    rw [refreshRepo] at h
    obtain ⟨_, u, hexpire, hrest⟩ := run_bind_eq_ok.mp h
    simp only [if_true] at hrest
    obtain ⟨result, v, hattempt, hskip⟩ := run_bind_eq_ok.mp hrest
    obtain ⟨rfl, rfl⟩ := skipUnavailable_ok hskip
    exact (loaded_initRepo hsolv hinv hguard hmeta hexpire (run_attempt_eq_ok hattempt)).1
  · rintro hmeta urls t hcome ⟨solv, data, hsome, hdata, hcookie⟩
    obtain rfl := hguard.sameId
    have hinv' : Inv fmt part dir run.repo.pszId t :=
      inv_comeToParts hguard.idName hguard.place hguard.removable hinv hcome
    have hplaced := (hguard.loadable hmeta urls t hcome data hdata).placed
    obtain ⟨content, rfl, -⟩ := (hinv' data hdata hplaced).solv solv hsome
    exact hcookie (hsolv.cookie content _)

end Runs

/-! ## A plain repository -/

section Plain

/-- The cache directory of the plain repository. -/
def plainDir : Loc := locOf "/c/r".toList

/-- A repository whose files all hold the same data. -/
def plainServer : Env (List ℕ) (List ℕ) := plainEnv fun _ => .saved [1] none

/-- The plain repository without its file lists. -/
def shortRepo : Repo := { plainRepo with nSkipMDFileLists := true }

def plainRun : Run (List ℕ) (List ℕ) := ⟨plainServer, plainConf false, plainRepo⟩

def shortRun : Run (List ℕ) (List ℕ) := ⟨plainServer, plainConf false, shortRepo⟩

/-- The cache directory after a first run. -/
def cachedBy (run : Run (List ℕ) (List ℕ)) : Cache (List ℕ) :=
  finalState ((refreshRepo plainFormats run.env run.conf true run.repo).run emptyCache)

/-- The cache directory where a plain run sees to the parts. -/
def plainParts (s : Cache (List ℕ)) : Cache (List ℕ) :=
  finalState ((comeToParts plainFormats plainServer (plainConf false) plainRepo).run s)

theorem faithful_plain : FaithfulSolv plainFormats := by
  constructor
  · intro content cookie
    change some ((content.length :: (content ++ cookie)).drop (1 + content.length)) = some cookie
    rw [Nat.add_comm, List.drop_succ_cons, List.drop_left]
  · intro content cookie
    change some ((content ++ cookie).take content.length) = some content
    rw [List.take_left]

theorem listedAt_plain {location : Text} (h : ListedAt plainFormats [1] location) :
    location = "repodata/primary.xml".toList ∨ location = "repodata/filelists.xml".toList := by
  obtain ⟨-, kind, hkind⟩ := h
  cases kind with
  | primary => exact .inl (Option.some.inj hkind).symm
  | fileLists => exact .inr (Option.some.inj hkind).symm
  | updateInfo => cases hkind
  | other => cases hkind

theorem wellPlaced_plain : WellPlaced plainFormats plainDir [1] := by
  constructor
  · intro location h
    obtain rfl | rfl := listedAt_plain h
    · exact ⟨⟨"primary.xml".toList, by decide⟩, by decide +kernel⟩
    · exact ⟨⟨"filelists.xml".toList, by decide⟩, by decide +kernel⟩
  · intro location other h h'
    obtain rfl | rfl := listedAt_plain h <;> obtain rfl | rfl := listedAt_plain h'
    · exact fun _ => rfl
    · decide +kernel
    · decide +kernel
    · exact fun _ => rfl
  · intro location other h h'
    obtain rfl | rfl := listedAt_plain h <;> obtain rfl | rfl := listedAt_plain h' <;>
      decide +kernel

/-- What is to be checked of the files for a plain run to meet the condition. -/
theorem guard_plain {s : Cache (List ℕ)}
    (hrepoMD : (plainParts s).files (repoMDLoc plainDir) = .file [1] 0)
    (hfiles : ∀ l ∈ [solvPlace plainDir "r".toList,
        partPlace plainDir "repodata/primary.xml".toList,
        partPlace plainDir "repodata/filelists.xml".toList],
      (plainParts s).files l = .absent ∨ ((plainParts s).files.data l).isSome)
    (hmade : (plainParts s).files.data (solvPlace plainDir "r".toList) ≠ none →
      (plainParts s).made = (selectedParts plainFormats plainRepo [1]).map Prod.fst) :
    Guard plainFormats (fun _ _ => [1]) plainDir "r".toList s plainRun := by
  have hnoDir (l : Loc) (h : (plainParts s).files l = .absent ∨
      ((plainParts s).files.data l).isSome) (ctime : ℤ) :
      (plainParts s).files l ≠ .dir ctime := by
    intro hdir
    simp [Files.data, hdir, Entry.data] at h
  have hstate {urls : List Text} {t : Cache (List ℕ)}
      (h : (comeToParts plainFormats plainServer (plainConf false) plainRepo).run s = .ok urls t) :
      t = plainParts s := by
    rw [plainParts, h, finalState]
  constructor
  · decide +kernel
  · rfl
  · decide
  · exact fun _ _ _ _ => rfl
  · exact fun _ _ h => by cases h
  · intro _ urls t hrun ctime
    rw [hstate hrun, hrepoMD]
    simp
  · intro _ urls t hrun data hdata
    obtain rfl := hstate hrun
    obtain rfl : data = [1] := by
      simp only [Files.data, hrepoMD, Entry.data] at hdata
      exact (Option.some.inj hdata).symm
    constructor
    · exact wellPlaced_plain
    · intro l ctime hl
      cases hl with
      | repoMD =>
          rw [hrepoMD]
          simp
      | solv => exact hnoDir _ (hfiles _ (by simp [plainRun, plainRepo, createRepo])) ctime
      | part hlisted =>
          obtain rfl | rfl := listedAt_plain hlisted
          · exact hnoDir _ (hfiles _ (by simp)) ctime
          · exact hnoDir _ (hfiles _ (by simp)) ctime
    · exact hmade
    · intro _ _ _ _ _ _ _ _ _ hfetch
      cases hfetch
      rfl

theorem plainRun_transparent : Transparent plainFormats (fun _ _ => [1]) plainDir
    (cachedBy plainRun) plainRun := by
  have hfirst : Guard plainFormats (fun _ _ => [1]) plainDir "r".toList emptyCache plainRun :=
    guard_plain (by decide +kernel) (by decide +kernel) (by decide +kernel)
  have hstep : GuardedStep (step plainFormats)
      (Guard plainFormats (fun _ _ => [1]) plainDir "r".toList) emptyCache (cachedBy plainRun) :=
    ⟨plainRun, hfirst, rfl⟩
  exact refreshRepo_transparent faithful_plain (Relation.ReflTransGen.single hstep) plainRun
    (guard_plain (by decide +kernel) (by decide +kernel) (by decide +kernel))

/-- What a plain run loads. -/
def loadedFrom (s : Cache (List ℕ)) : Option (List ℕ) :=
  match (refreshRepo plainFormats plainServer (plainConf false) true plainRepo).run s with
  | .ok (_, content) _ => content
  | .error _ _ => none

/-- Once the file lists were skipped, they are not loaded where they are wanted. -/
theorem shortRun_not_transparent : ¬ Transparent plainFormats (fun _ _ => [1]) plainDir
    (cachedBy shortRun) plainRun := by
  intro h
  have hload : loadedFrom (cachedBy shortRun) = some [1, 1] := by decide +kernel
  have hrepoMD : (finalState ((refreshRepo plainFormats plainServer (plainConf false) true
      plainRepo).run (cachedBy shortRun))).files.data (repoMDLoc plainDir) = some [1] := by
    decide +kernel
  have hscratch : (fromScratch plainFormats (fun _ _ => [1]) plainRepo [1]).toOption =
      some [1, 1, 1] := by decide +kernel
  rw [loadedFrom] at hload
  cases hrun : (refreshRepo plainFormats plainServer (plainConf false) true plainRepo).run
      (cachedBy shortRun) with
  | error e t => simp [hrun] at hload
  | ok result t =>
      obtain ⟨repo, content⟩ := result
      simp only [hrun] at hload
      subst hload
      obtain ⟨data, hdata, hcontent⟩ := h.loaded repo [1, 1] t hrun rfl
      rw [hrun, finalState, hdata] at hrepoMD
      obtain rfl := Option.some.inj hrepoMD
      have hsame : some [1, 1] = some [1, 1, 1] := by
        rw [← hscratch]
        exact (congrArg Except.toOption hcontent).symm
      cases hsame

end Plain

end Tdnf.Client.RepoCache
