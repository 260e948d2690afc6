import Tdnf.Llconf.SettingBook

/-!
# Files that show a book of settings

Runs of `tdnf-config` over the main configuration and the files of a repository
directory are runs over the book of the sections in these files. A run that the
system refuses leaves the book as it was.
-/

namespace Tdnf.Llconf

open PathText Common Procedure FileTable

/-! ## Files and books -/

/-- Which files there are for sections: the main configuration, and the files that the pattern
matches, none of which is a file that is being written. -/
structure Layout where
  mainConfig : Text
  repodir : Text
  visible : Text → Prop
  hidden : ¬ visible mainConfig
  temporary : ∀ path, visible path ∨ path = mainConfig →
    ¬ visible (tmpName path) ∧ tmpName path ≠ mainConfig

/-- A file for sections. -/
def Layout.Placed (lay : Layout) (path : Text) : Prop := lay.visible path ∨ path = lay.mainConfig

/-- A file for a section. -/
def Layout.Place (lay : Layout) (repo path : Text) : Prop :=
  if repo = mainSection then path = lay.mainConfig else lay.visible path

/-- The section of a name in a file. -/
def look (files : Table Text CnfNode) (path repo : Text) : Option CnfNode :=
  (files.read path).bind fun cnRoot => findChild cnRoot repo

/-- The files show a book: every section is in one file, and has the settings of the book. -/
structure Shows (lay : Layout) (files : Table Text CnfNode) (b : Book) : Prop where
  main : ∃ s, b mainSection = some s ∧ (s repodirKey).getD defaultRepoLocation = lay.repodir
  orderly : ∀ path cnRoot, lay.Placed path → files.read path = some cnRoot → OrderlyFile cnRoot
  apart : ∀ repo path path' cnRepo cnRepo', repo.head? ≠ some '.' → lay.Place repo path →
    lay.Place repo path' → look files path repo = some cnRepo →
    look files path' repo = some cnRepo' → path = path'
  book : ∀ repo s, repo.head? ≠ some '.' → (b repo = some s ↔
    ∃ path cnRepo, lay.Place repo path ∧ look files path repo = some cnRepo ∧ settings cnRepo = s)

section Layouts

variable {lay : Layout} {files files' : Table Text CnfNode} {b : Book} {repo path : Text}
  {cnRoot cnRepo : CnfNode}

theorem Layout.Place.placed (h : lay.Place repo path) : lay.Placed path := by
  rw [Layout.Place] at h
  split at h
  · exact .inr h
  · exact .inl h

theorem place_main (lay : Layout) : lay.Place mainSection lay.mainConfig := by
  rw [Layout.Place, if_pos rfl]

theorem place_of_ne (hmain : repo ≠ mainSection) : lay.Place repo path ↔ lay.visible path := by
  rw [Layout.Place, if_neg hmain]

theorem look_of_read (h : files.read path = some cnRoot) (repo : Text) :
    look files path repo = findChild cnRoot repo := by
  rw [look, h, Option.bind_some]

theorem exists_of_look (h : look files path repo = some cnRepo) :
    ∃ cnRoot, files.read path = some cnRoot ∧ findChild cnRoot repo = some cnRepo :=
  Option.bind_eq_some_iff.mp h

theorem main_dot : mainSection.head? ≠ some '.' := by decide

/-- A section of the book has its file. -/
theorem Shows.locate (h : Shows lay files b) (hdot : repo.head? ≠ some '.') {s : Settings}
    (hb : b repo = some s) : ∃ path cnRoot cnRepo, lay.Place repo path ∧
      files.read path = some cnRoot ∧ OrderlyFile cnRoot ∧ findChild cnRoot repo = some cnRepo ∧
      settings cnRepo = s := by
  obtain ⟨path, cnRepo, hplace, hlook, hs⟩ := (h.book repo s hdot).mp hb
  obtain ⟨cnRoot, hread, hfind⟩ := exists_of_look hlook
  exact ⟨path, cnRoot, cnRepo, hplace, hread, h.orderly path cnRoot hplace.placed hread, hfind, hs⟩

theorem Shows.look_eq_none (h : Shows lay files b) (hdot : repo.head? ≠ some '.')
    (hb : b repo = none) (hplace : lay.Place repo path) : look files path repo = none := by
  cases hlook : look files path repo with
  | none => rfl
  | some cnRepo =>
      have hsome := (h.book repo (settings cnRepo) hdot).mpr ⟨path, cnRepo, hplace, hlook, rfl⟩
      rw [hb] at hsome
      cases hsome

/-- One section is changed at its place, and no other one anywhere. -/
theorem Shows.replace (h : Shows lay files b) (hdot : repo.head? ≠ some '.')
    (hplace : lay.Place repo path) (new : Option CnfNode)
    (hlook : ∀ path' repo', repo'.head? ≠ some '.' → lay.Placed path' →
      look files' path' repo' = if path' = path ∧ repo' = repo then new else look files path' repo')
    (horderly : ∀ path' cnRoot, lay.Placed path' → files'.read path' = some cnRoot →
      OrderlyFile cnRoot)
    (honly : ∀ path' cnRepo, lay.Place repo path' → look files path' repo = some cnRepo →
      path' = path)
    (hmain : repo = mainSection → ∃ cnRepo, new = some cnRepo ∧
      (settings cnRepo repodirKey).getD defaultRepoLocation = lay.repodir) :
    Shows lay files' (Function.update b repo (new.map settings)) := by
  have hother : ∀ path' repo', repo'.head? ≠ some '.' → repo' ≠ repo → lay.Place repo' path' →
      look files' path' repo' = look files path' repo' := by
    intro path' repo' hdot' hne hplace'
    rw [hlook path' repo' hdot' hplace'.placed, if_neg fun hboth => hne hboth.2]
  have hhere : ∀ path' cnRepo, lay.Place repo path' → look files' path' repo = some cnRepo →
      path' = path ∧ new = some cnRepo := by
    intro path' cnRepo hplace' hfound
    rw [hlook path' repo hdot hplace'.placed] at hfound
    by_cases heq : path' = path
    · rw [if_pos ⟨heq, rfl⟩] at hfound
      exact ⟨heq, hfound⟩
    · rw [if_neg fun hboth => heq hboth.1] at hfound
      exact absurd (honly path' cnRepo hplace' hfound) heq
  refine ⟨?_, horderly, ?_, ?_⟩
  · by_cases hrepo : repo = mainSection
    · obtain ⟨cnRepo, rfl, hrepodir⟩ := hmain hrepo
      subst hrepo
      exact ⟨settings cnRepo, Function.update_self .., hrepodir⟩
    · obtain ⟨s, hs, hrepodir⟩ := h.main
      exact ⟨s, by rw [Function.update_of_ne (Ne.symm hrepo), hs], hrepodir⟩
  · intro repo' path₁ path₂ cn₁ cn₂ hdot' hplace₁ hplace₂ hlook₁ hlook₂
    by_cases heq : repo' = repo
    · subst heq
      rw [(hhere path₁ cn₁ hplace₁ hlook₁).1, (hhere path₂ cn₂ hplace₂ hlook₂).1]
    · rw [hother path₁ repo' hdot' heq hplace₁] at hlook₁
      rw [hother path₂ repo' hdot' heq hplace₂] at hlook₂
      exact h.apart repo' path₁ path₂ cn₁ cn₂ hdot' hplace₁ hplace₂ hlook₁ hlook₂
  · intro repo' s hdot'
    by_cases heq : repo' = repo
    · subst heq
      rw [Function.update_self, Option.map_eq_some_iff]
      constructor
      · rintro ⟨cnRepo, rfl, hs⟩
        refine ⟨path, cnRepo, hplace, ?_, hs⟩
        rw [hlook path repo' hdot' hplace.placed, if_pos ⟨rfl, rfl⟩]
      · rintro ⟨path', cnRepo, hplace', hfound, hs⟩
        exact ⟨cnRepo, (hhere path' cnRepo hplace' hfound).2, hs⟩
    · rw [Function.update_of_ne heq, h.book repo' s hdot']
      constructor
      · rintro ⟨path', cnRepo, hplace', hfound, hs⟩
        exact ⟨path', cnRepo, hplace', by rw [hother path' repo' hdot' heq hplace', hfound], hs⟩
      · rintro ⟨path', cnRepo, hplace', hfound, hs⟩
        rw [hother path' repo' hdot' heq hplace'] at hfound
        exact ⟨path', cnRepo, hplace', hfound, hs⟩

/-- Files that hold the same at all places of sections. -/
theorem Shows.same (h : Shows lay files b)
    (hread : ∀ path, lay.Placed path → files'.read path = files.read path) :
    Shows lay files' b := by
  have hlook : ∀ repo path, lay.Place repo path → look files' path repo = look files path repo := by
    intro repo path hplace
    rw [look, hread path hplace.placed, look]
  refine ⟨h.main, ?_, ?_, ?_⟩
  · intro path cnRoot hplaced hfile
    rw [hread path hplaced] at hfile
    exact h.orderly path cnRoot hplaced hfile
  · intro repo path₁ path₂ cn₁ cn₂ hdot hplace₁ hplace₂ hlook₁ hlook₂
    rw [hlook repo path₁ hplace₁] at hlook₁
    rw [hlook repo path₂ hplace₂] at hlook₂
    exact h.apart repo path₁ path₂ cn₁ cn₂ hdot hplace₁ hplace₂ hlook₁ hlook₂
  · intro repo s hdot
    rw [h.book repo s hdot]
    constructor
    · rintro ⟨path, cnRepo, hplace, hfound, hs⟩
      exact ⟨path, cnRepo, hplace, by rw [hlook repo path hplace, hfound], hs⟩
    · rintro ⟨path, cnRepo, hplace, hfound, hs⟩
      rw [hlook repo path hplace] at hfound
      exact ⟨path, cnRepo, hplace, hfound, hs⟩

end Layouts

/-! ## Runs of the commands -/

/-- A system that refuses nothing. -/
def Host.Obliging (host : Host) : Prop :=
  (∀ path, host.writable path = true) ∧ (∀ old new, host.renames old new = true) ∧
    ∀ path, host.unlinks path = true

/-- A run with the files of a layout, all of which can be read. -/
structure Meets (lay : Layout) (host : Host) (options : ConfigOptions) : Prop where
  mainConfig : options.mainConfig = lay.mainConfig
  glob : ∀ paths, ∃ found, host.glob (repoPattern lay.repodir) paths = some found ∧
    ∀ path, path ∈ found ↔ path ∈ paths ∧ lay.visible path
  readable : ∀ path, lay.Placed path → host.readable path = true
  repoConfig : ∀ path, options.repoConfig = some path → lay.visible path

/-- A run ends as a step of the book, or the system refuses it and the book stays. -/
def Agrees (lay : Layout) (host : Host) (b : Book) (expected : Except Halt (Text × Book))
    (r : EStateM.Result Halt (Table Text CnfNode) Text) : Prop :=
  (∃ output files b', r = .ok output files ∧ expected = .ok (output, b') ∧ Shows lay files b') ∨
    (∃ halt files, r = .error halt files ∧ expected = .error halt ∧ Shows lay files b) ∨
    ∃ files, r = .error (.exit 2) files ∧ Shows lay files b ∧ ¬ host.Obliging

section Commands

variable {lay : Layout} {host : Host} {options : ConfigOptions}
  {files files' : Table Text CnfNode} {b : Book} {repo path fname : Text} {cnRoot cnRepo : CnfNode}

theorem parseFile_of_none (h : files.read fname = none) :
    (parseFile treeCodec host fname).run files = .ok (.error .noEntry) files := by
  rw [parseFile, run_get_bind, h]
  rfl

theorem parseFile_of_some (hreadable : host.readable fname = true)
    (h : files.read fname = some cnRoot) :
    (parseFile treeCodec host fname).run files = .ok (.ok cnRoot) files := by
  rw [parseFile, run_get_bind, h]
  simp only [hreadable, if_true]
  rfl

/-- The main configuration of the files. -/
theorem Shows.mainRoot (h : Shows lay files b) : ∃ cnRoot cnMain s,
    files.read lay.mainConfig = some cnRoot ∧ OrderlyFile cnRoot ∧
      findChild cnRoot mainSection = some cnMain ∧ b mainSection = some s ∧ settings cnMain = s ∧
      repodirOf cnRoot = .ok lay.repodir := by
  obtain ⟨s, hs, hrepodir⟩ := h.main
  obtain ⟨path, cnRoot, cnMain, hplace, hread, horderly, hfind, hsettings⟩ := h.locate main_dot hs
  rw [Layout.Place, if_pos rfl] at hplace
  subst hplace
  refine ⟨cnRoot, cnMain, s, hread, horderly, hfind, hs, hsettings, ?_⟩
  have htidy := (horderly.section main_dot hfind).tidy
  rw [← hsettings] at hrepodir
  rw [repodirOf, hfind]
  simp only
  cases hkey : findChild cnMain repodirKey with
  | none =>
      rw [(settings_eq_none_iff htidy).mpr hkey] at hrepodir
      exact congrArg _ hrepodir
  | some cnRepodir =>
      cases hvalue : cnRepodir.value with
      | none =>
          have hnone : settings cnMain repodirKey = none := by
            rw [settings, hkey, Option.bind_some, hvalue]
          rw [(settings_eq_none_iff htidy).mp hnone] at hkey
          cases hkey
      | some repodir =>
          rw [settings, hkey, Option.bind_some, hvalue, Option.getD_some] at hrepodir
          simp only [hvalue, hrepodir]

theorem getRepodir_run (hmeets : Meets lay host options) (h : Shows lay files b) :
    (getRepodir treeCodec host options.mainConfig).run files = .ok lay.repodir files := by
  obtain ⟨cnRoot, cnMain, s, hread, -, -, -, -, hrepodir⟩ := h.mainRoot
  have hparse := parseFile_of_some (hmeets.readable lay.mainConfig (.inr rfl)) hread
  rw [hmeets.mainConfig, getRepodir, run_bind_ok hparse]
  simp only [hrepodir]
  rfl

/-- The first file with the section, if there is one. -/
theorem findRepoIn_run (repo : Text) {paths : List Text}
    (hpaths : ∀ path ∈ paths, path ∈ files.paths ∧ host.readable path = true) :
    ∃ found, (findRepoIn treeCodec host repo paths).run files = .ok found files ∧
      (found = none → ∀ path ∈ paths, look files path repo = none) ∧
      ∀ cnRoot path, found = some (cnRoot, path) → path ∈ paths ∧
        files.read path = some cnRoot ∧ findChild cnRoot repo ≠ none := by
  induction paths with
  | nil => exact ⟨none, rfl, by simp, fun _ _ h => by cases h⟩
  | cons path paths ih =>
      rw [List.forall_mem_cons] at hpaths
      obtain ⟨⟨hmem, hreadable⟩, hrest⟩ := hpaths
      obtain ⟨cnRoot, hread⟩ : ∃ cnRoot, files.read path = some cnRoot := by
        rw [← Option.ne_none_iff_exists', ne_eq, read_eq_none_iff, not_not]
        exact hmem
      rw [findRepoIn, run_bind_ok (parseFile_of_some hreadable hread)]
      simp only
      cases hfind : findChild cnRoot repo with
      | some cnRepo =>
          refine ⟨some (cnRoot, path), rfl, fun h => ?_, fun cnRoot' path' h => ?_⟩
          · cases h
          · cases h
            exact ⟨List.mem_cons_self, hread, by simp [hfind]⟩
      | none =>
          obtain ⟨found, hrun, hnone, hsome⟩ := ih hrest
          refine ⟨found, hrun, fun h => ?_, fun cnRoot' path' h => ?_⟩
          · rw [List.forall_mem_cons]
            exact ⟨by rw [look_of_read hread, hfind], hnone h⟩
          · obtain ⟨hmem', hfound⟩ := hsome cnRoot' path' h
            exact ⟨List.mem_cons_of_mem path hmem', hfound⟩

theorem look_of_not_mem (h : path ∉ files.paths) (repo : Text) : look files path repo = none := by
  rw [look, read_eq_none_iff.mpr h, Option.bind_none]

theorem findRepo_run (hmeets : Meets lay host options) (files : Table Text CnfNode) (repo : Text) :
    ∃ found, (findRepo treeCodec host lay.repodir repo).run files = .ok found files ∧
      (found = none → ∀ path, lay.visible path → look files path repo = none) ∧
      ∀ cnRoot path, found = some (cnRoot, path) → lay.visible path ∧
        files.read path = some cnRoot ∧ findChild cnRoot repo ≠ none := by
  obtain ⟨paths, hglob, hpaths⟩ := hmeets.glob files.paths
  have hall : ∀ path ∈ paths, path ∈ files.paths ∧ host.readable path = true := by
    intro path hpath
    obtain ⟨hmem, hvisible⟩ := (hpaths path).mp hpath
    exact ⟨hmem, hmeets.readable path (.inl hvisible)⟩
  obtain ⟨found, hrun, hnone, hsome⟩ := findRepoIn_run repo hall
  refine ⟨found, ?_, fun h path hvisible => ?_, fun cnRoot path h => ?_⟩
  · rw [findRepo, run_get_bind, hglob]
    exact hrun
  · by_cases hmem : path ∈ files.paths
    · exact hnone h path ((hpaths path).mpr ⟨hmem, hvisible⟩)
    · exact look_of_not_mem hmem repo
  · obtain ⟨hmem, hfound⟩ := hsome cnRoot path h
    exact ⟨((hpaths path).mp hmem).2, hfound⟩

/-- A section that is in no book is in no file. -/
theorem findRepo_of_none (hmeets : Meets lay host options) (h : Shows lay files b)
    (hdot : repo.head? ≠ some '.') (hmain : repo ≠ mainSection) (hb : b repo = none) :
    (findRepo treeCodec host lay.repodir repo).run files = .ok none files := by
  obtain ⟨found, hrun, -, hsome⟩ := findRepo_run hmeets files repo
  cases found with
  | none => exact hrun
  | some found =>
      obtain ⟨hvisible, hread, hfind⟩ := hsome found.1 found.2 rfl
      have hnone := h.look_eq_none hdot hb ((place_of_ne hmain).mpr hvisible)
      rw [look_of_read hread] at hnone
      exact absurd hnone hfind

theorem findRepo_of_some (hmeets : Meets lay host options) (h : Shows lay files b)
    (hdot : repo.head? ≠ some '.') (hmain : repo ≠ mainSection) {s : Settings}
    (hb : b repo = some s) : ∃ cnRoot path cnRepo,
      (findRepo treeCodec host lay.repodir repo).run files = .ok (some (cnRoot, path)) files ∧
      lay.Place repo path ∧ files.read path = some cnRoot ∧ OrderlyFile cnRoot ∧
      findChild cnRoot repo = some cnRepo ∧ settings cnRepo = s := by
  obtain ⟨path, cnRoot, cnRepo, hplace, hread, horderly, hfind, hs⟩ := h.locate hdot hb
  have hlook : look files path repo = some cnRepo := by rw [look_of_read hread, hfind]
  obtain ⟨found, hrun, hnone, hsome⟩ := findRepo_run hmeets files repo
  cases found with
  | none =>
      have hgone := hnone rfl path ((place_of_ne hmain).mp hplace)
      rw [hlook] at hgone
      cases hgone
  | some found =>
      obtain ⟨hvisible, hread', hfind'⟩ := hsome found.1 found.2 rfl
      obtain ⟨cnRepo', hcnRepo'⟩ := Option.ne_none_iff_exists'.mp hfind'
      have hlook' : look files found.2 repo = some cnRepo' := by
        rw [look_of_read hread', hcnRepo']
      have hsame : path = found.2 := h.apart repo path found.2 cnRepo cnRepo' hdot hplace
        ((place_of_ne hmain).mpr hvisible) hlook hlook'
      subst hsame
      have hroot : cnRoot = found.1 := by
        rw [hread] at hread'
        exact Option.some.inj hread'
      subst hroot
      exact ⟨found.1, found.2, cnRepo, hrun, hplace, hread, horderly, hfind, hs⟩

theorem getRepoRoot_of_some (hmeets : Meets lay host options) (h : Shows lay files b)
    (hdot : repo.head? ≠ some '.') {s : Settings} (hb : b repo = some s) :
    ∃ cnRoot path cnRepo,
      (getRepoRoot treeCodec host options.mainConfig repo).run files = .ok (cnRoot, path) files ∧
      lay.Place repo path ∧ files.read path = some cnRoot ∧ OrderlyFile cnRoot ∧
      findChild cnRoot repo = some cnRepo ∧ settings cnRepo = s := by
  rw [getRepoRoot]
  by_cases hmain : repo = mainSection
  · subst hmain
    obtain ⟨cnRoot, cnMain, s', hread, horderly, hfind, hb', hs, -⟩ := h.mainRoot
    obtain rfl : s = s' := by
      rw [hb] at hb'
      exact Option.some.inj hb'
    have hparse := parseFile_of_some (hmeets.readable lay.mainConfig (.inr rfl)) hread
    rw [if_pos rfl, hmeets.mainConfig, run_bind_ok hparse]
    exact ⟨cnRoot, lay.mainConfig, cnMain, rfl, place_main lay, hread, horderly, hfind, hs⟩
  · obtain ⟨cnRoot, path, cnRepo, hrun, hfound⟩ := findRepo_of_some hmeets h hdot hmain hb
    rw [if_neg hmain, run_bind_ok (getRepodir_run hmeets h), run_bind_ok hrun]
    exact ⟨cnRoot, path, cnRepo, rfl, hfound⟩

theorem getRepoRoot_of_none (hmeets : Meets lay host options) (h : Shows lay files b)
    (hdot : repo.head? ≠ some '.') (hb : b repo = none) :
    (getRepoRoot treeCodec host options.mainConfig repo).run files = .error (.exit 3) files := by
  have hmain : repo ≠ mainSection := by
    rintro rfl
    obtain ⟨s, hs, -⟩ := h.main
    rw [hb] at hs
    cases hs
  rw [getRepoRoot, if_neg hmain, run_bind_ok (getRepodir_run hmeets h),
    run_bind_ok (findRepo_of_none hmeets h hdot hmain hb)]
  rfl

/-- A file is written at its place, or nothing is changed at places of sections. -/
theorem writeFile_run (host : Host) (files : Table Text CnfNode) (hplaced : lay.Placed path)
    (cnRoot : CnfNode) :
    (∃ files', (writeFile treeCodec host cnRoot path).run files = .ok () files' ∧
      ∀ path', lay.Placed path' →
        files'.read path' = if path' = path then some cnRoot else files.read path') ∨
    ∃ files', (writeFile treeCodec host cnRoot path).run files = .error (.exit 2) files' ∧
      (∀ path', lay.Placed path' → files'.read path' = files.read path') ∧ ¬ host.Obliging := by
  have htmp : ∀ path', lay.Placed path' → path' ≠ tmpName path := by
    rintro path' hplaced' rfl
    obtain ⟨hvisible, hmain⟩ := lay.temporary path hplaced
    rcases hplaced' with h | h
    · exact hvisible h
    · exact hmain h
  rw [writeFile]
  by_cases hwritable : host.writable (tmpName path) = true
  · rw [if_pos hwritable]
    have hfirst : (modify fun files => files.write (tmpName path) (treeCodec.unparse cnRoot) :
        ConfigProc CnfNode PUnit).run files = .ok () (files.write (tmpName path) cnRoot) := rfl
    rw [run_bind_ok hfirst]
    by_cases hrenames : host.renames (tmpName path) path = true
    · refine .inl ⟨(files.write (tmpName path) cnRoot).rename (tmpName path) path, ?_, ?_⟩
      · rw [if_pos hrenames]
        rfl
      · intro path' hplaced'
        have hwritten : (files.write (tmpName path) cnRoot).read (tmpName path) = some cnRoot := by
          rw [read_write, if_pos rfl]
        rw [read_rename hwritten (htmp path hplaced).symm, if_neg (htmp path' hplaced'), read_write,
          if_neg (htmp path' hplaced')]
    · refine .inr ⟨files.write (tmpName path) cnRoot, ?_, ?_, fun hobliging => ?_⟩
      · rw [if_neg hrenames]
        rfl
      · intro path' hplaced'
        rw [read_write, if_neg (htmp path' hplaced')]
      · exact hrenames (hobliging.2.1 _ _)
  · refine .inr ⟨files, ?_, fun _ _ => rfl, fun hobliging => hwritable (hobliging.1 _)⟩
    rw [if_neg hwritable]
    rfl

/-- Writing a file in which one section is another one changes that section of the book. -/
theorem write_agrees (h : Shows lay files b) (hdot : repo.head? ≠ some '.')
    (hplace : lay.Place repo path) (horderly : OrderlyFile cnRoot)
    (hfind : ∀ repo', repo'.head? ≠ some '.' →
      findChild cnRoot repo' = if repo' = repo then some cnRepo else look files path repo')
    (honly : ∀ path' cnRepo', lay.Place repo path' → look files path' repo = some cnRepo' →
      path' = path)
    (hmain : repo = mainSection →
      (settings cnRepo repodirKey).getD defaultRepoLocation = lay.repodir) :
    Agrees lay host b (.ok ([], Function.update b repo (some (settings cnRepo))))
      ((do writeFile treeCodec host cnRoot path; pure []).run files) := by
  obtain ⟨files', hrun, hread⟩ | ⟨files', hrun, hread, hobliging⟩ :=
    writeFile_run host files hplace.placed cnRoot
  · refine .inl ⟨[], files', _, ?_, rfl, h.replace hdot hplace (some cnRepo) ?_ ?_ honly ?_⟩
    · rw [run_bind_ok hrun]
      rfl
    · intro path' repo' hdot' hplaced'
      rw [look, hread path' hplaced']
      by_cases hpath : path' = path
      · subst hpath
        rw [if_pos rfl, Option.bind_some, hfind repo' hdot']
        simp only [true_and]
      · rw [if_neg hpath, if_neg fun hboth => hpath hboth.1, look]
    · intro path' cnRoot' hplaced' hfile
      rw [hread path' hplaced'] at hfile
      split at hfile
      · obtain rfl := Option.some.inj hfile
        exact horderly
      · exact h.orderly path' cnRoot' hplaced' hfile
    · exact fun hrepo => ⟨cnRepo, rfl, hmain hrepo⟩
  · refine .inr (.inr ⟨files', ?_, h.same hread, hobliging⟩)
    rw [run_bind_error hrun]

/-- Steps on the section that was found, and then writing its file. -/
theorem change_agrees (h : Shows lay files b) (hdot : repo.head? ≠ some '.')
    (hplace : lay.Place repo path) (hread : files.read path = some cnRoot)
    (horderly : OrderlyFile cnRoot) (hfind : findChild cnRoot repo = some cnRepo)
    {loop : Except Halt CnfNode} {bookLoop : Except Halt Settings}
    (hloop : loop.map settings = bookLoop)
    (hvaries : ∀ cnRepo', loop = .ok cnRepo' → Varies cnRepo cnRepo')
    (hmain : repo = mainSection → ∀ s', bookLoop = .ok s' →
      (s' repodirKey).getD defaultRepoLocation = lay.repodir) :
    Agrees lay host b (b.put repo bookLoop) ((do
      let cnRoot ← fromExcept (loop.map (withSection cnRoot repo))
      writeFile treeCodec host cnRoot path
      pure []).run files) := by
  cases hresult : loop with
  | error halt =>
      rw [← hloop, hresult]
      exact .inr (.inl ⟨halt, files, rfl, rfl, h⟩)
  | ok cnRepo' =>
      obtain ⟨horderly', children, rfl⟩ := hvaries cnRepo' hresult
      rw [← hloop, hresult] at hmain ⊢
      refine write_agrees h hdot hplace (horderly.withSection hdot hfind horderly') ?_ ?_
        fun hrepo => hmain hrepo _ rfl
      · intro repo' _
        rw [findChild_withSection hfind, look_of_read hread]
      · intro path' cnRepo' hplace' hlook'
        have hlook : look files path repo = some cnRepo := by rw [look_of_read hread, hfind]
        exact h.apart repo path' path cnRepo' cnRepo hdot hplace' hplace hlook' hlook

theorem setKeyValues_of_find (hfind : findChild cnRoot repo = some cnRepo) (kv : List Text) :
    setKeyValues cnRoot repo kv =
      (kv.foldlM setKeyValue cnRepo).map (withSection cnRoot repo) := by
  rw [findChild] at hfind
  rw [setKeyValues, hfind]
  simp only
  cases kv.foldlM setKeyValue cnRepo with
  | ok _ => rfl
  | error _ => rfl

theorem removeKeys_of_find (hfind : findChild cnRoot repo = some cnRepo) (keys : List Text) :
    removeKeys cnRoot repo keys =
      (keys.foldlM removeKey cnRepo).map (withSection cnRoot repo) := by
  rw [removeKeys, hfind]
  simp only
  cases keys.foldlM removeKey cnRepo with
  | ok _ => rfl
  | error _ => rfl

theorem setLoop_other {kv : List Text} {key : Text} {s s' : Settings}
    (hkv : ∀ keyval ∈ kv, ∀ setting, splitSetting keyval = some setting → setting.1 ≠ key)
    (h : kv.foldlM Settings.set s = .ok s') : s' key = s key := by
  refine keeps_of_foldlM_ok (I := fun t => t key = s key) ?_ rfl h
  intro t t' keyval hkeyval ht hstep
  rw [Settings.set] at hstep
  cases hsplit : splitSetting keyval with
  | none =>
      rw [hsplit] at hstep
      cases hstep
  | some setting =>
      rw [hsplit] at hstep
      obtain rfl := Except.ok.inj hstep
      rw [Function.update_of_ne (hkv keyval hkeyval setting hsplit).symm, ht]

theorem removeLoop_other {keys : List Text} {key : Text} {s s' : Settings} (hkeys : key ∉ keys)
    (h : keys.foldlM Settings.remove s = .ok s') : s' key = s key := by
  refine keeps_of_foldlM_ok (I := fun t => t key = s key) ?_ rfl h
  intro t t' key' hkey' ht hstep
  have hne : key ≠ key' := fun heq => hkeys (heq ▸ hkey')
  rw [Settings.remove] at hstep
  cases hvalue : t key' with
  | none =>
      rw [hvalue] at hstep
      cases hstep
  | some value =>
      rw [hvalue] at hstep
      obtain rfl := Except.ok.inj hstep
      rw [Function.update_of_ne hne, ht]

end Commands

/-! ## Actions -/

/-- Command lines about settings: what they write is read again, no comment is removed by its
name, and the main configuration goes on to name its directory. -/
def Plain : List Text → Prop
  | action :: repo :: args =>
    FitsArgs (action :: repo :: args) ∧ action ≠ "dump".toList ∧
      (action = "remove".toList → ∀ key ∈ args, key.head? ≠ some '.') ∧
      (repo = mainSection → action ≠ "removerepo".toList ∧
        (action = "edit".toList → ∀ keyval ∈ args, ∀ setting,
          splitSetting keyval = some setting → setting.1 ≠ repodirKey) ∧
        (action = "remove".toList → repodirKey ∉ args))
  | _ => True

/-- A section is not created in the place of a file that is there. -/
def Unclaimed {α : Type} (lay : Layout) (options : ConfigOptions) (argv : List Text)
    (files : Table Text α) : Prop :=
  ∀ repo args, argv = "create".toList :: repo :: args → options.repoConfig = none →
    lay.visible (repoFile lay.repodir repo) ∧ repoFile lay.repodir repo ∉ files.paths

section Actions

variable {lay : Layout} {host : Host} {options : ConfigOptions}
  {files : Table Text CnfNode} {b : Book} {repo key : Text} {args : List Text}

theorem Shows.repodir (h : Shows lay files b) {s : Settings} (hb : b mainSection = some s) :
    (s repodirKey).getD defaultRepoLocation = lay.repodir := by
  obtain ⟨s', hs', hrepodir⟩ := h.main
  rw [hb] at hs'
  obtain rfl := Option.some.inj hs'
  exact hrepodir

theorem editAction_agrees (hmeets : Meets lay host options) (h : Shows lay files b)
    (hdot : repo.head? ≠ some '.') (hkv : ∀ keyval ∈ args, FitsSetting keyval)
    (hmain : repo = mainSection → ∀ keyval ∈ args, ∀ setting,
      splitSetting keyval = some setting → setting.1 ≠ repodirKey) :
    Agrees lay host b (b.edit repo args)
      ((editAction treeCodec host options repo args).run files) := by
  rw [editAction, Book.edit]
  cases hb : b repo with
  | none =>
      rw [run_bind_error (getRepoRoot_of_none hmeets h hdot hb)]
      exact .inr (.inl ⟨_, files, rfl, rfl, h⟩)
  | some s =>
      obtain ⟨cnRoot, path, cnRepo, hrun, hplace, hread, horderly, hfind, rfl⟩ :=
        getRepoRoot_of_some hmeets h hdot hb
      rw [run_bind_ok hrun, setKeyValues_of_find hfind]
      refine change_agrees h hdot hplace hread horderly hfind (settings_setLoop args cnRepo) ?_ ?_
      · intro cnRepo' hloop
        exact foldlM_varies (fun cn cn' keyval hkeyval hcn hstep =>
          setKeyValue_varies hcn (hkv keyval hkeyval) hstep) (horderly.section hdot hfind) hloop
      · rintro rfl s' hloop
        rw [setLoop_other (hmain rfl) hloop]
        exact h.repodir hb

theorem removeAction_agrees (hmeets : Meets lay host options) (h : Shows lay files b)
    (hdot : repo.head? ≠ some '.') (hkeys : ∀ key ∈ args, key.head? ≠ some '.')
    (hmain : repo = mainSection → repodirKey ∉ args) :
    Agrees lay host b (b.remove repo args)
      ((removeAction treeCodec host options repo args).run files) := by
  rw [removeAction, Book.remove]
  cases hb : b repo with
  | none =>
      rw [run_bind_error (getRepoRoot_of_none hmeets h hdot hb)]
      exact .inr (.inl ⟨_, files, rfl, rfl, h⟩)
  | some s =>
      obtain ⟨cnRoot, path, cnRepo, hrun, hplace, hread, horderly, hfind, rfl⟩ :=
        getRepoRoot_of_some hmeets h hdot hb
      have hsection := horderly.section hdot hfind
      rw [run_bind_ok hrun, removeKeys_of_find hfind]
      refine change_agrees h hdot hplace hread horderly hfind
        (settings_removeLoop hkeys hsection) ?_ ?_
      · intro cnRepo' hloop
        exact foldlM_varies (fun cn cn' key _ hcn hstep => removeKey_varies hcn hstep) hsection hloop
      · rintro rfl s' hloop
        rw [removeLoop_other (hmain rfl) hloop]
        exact h.repodir hb

theorem getAction_agrees (hmeets : Meets lay host options) (h : Shows lay files b)
    (hdot : repo.head? ≠ some '.') (key : Text) :
    Agrees lay host b (b.get repo key)
      ((getAction treeCodec host options repo key).run files) := by
  rw [getAction, Book.get]
  cases hb : b repo with
  | none =>
      rw [run_bind_error (getRepoRoot_of_none hmeets h hdot hb)]
      exact .inr (.inl ⟨_, files, rfl, rfl, h⟩)
  | some s =>
      obtain ⟨cnRoot, path, cnRepo, hrun, -, -, horderly, hfind, rfl⟩ :=
        getRepoRoot_of_some hmeets h hdot hb
      have htidy := (horderly.section hdot hfind).tidy
      rw [run_bind_ok hrun]
      simp only [settingLineOf, hfind]
      cases hkey : findChild cnRepo key with
      | none =>
          rw [(settings_eq_none_iff htidy).mpr hkey]
          exact .inr (.inl ⟨_, files, rfl, rfl, h⟩)
      | some cnKeyval =>
          have hvalue : settings cnRepo key = cnKeyval.value := by
            rw [settings, hkey, Option.bind_some]
          rw [hvalue]
          cases hv : cnKeyval.value with
          | none =>
              rw [hv, settings_eq_none_iff htidy, hkey] at hvalue
              cases hvalue
          | some value =>
              simp only [hv]
              exact .inl ⟨_, files, b, rfl, rfl, h⟩

/-- The file without the section is written, or removed when nothing else is in it. -/
theorem storeOrUnlink_run (host : Host) (files : Table Text CnfNode) {path : Text}
    (hplaced : lay.Placed path) (cnRoot : CnfNode) :
    (∃ files', (storeOrUnlink treeCodec host cnRoot path).run files = .ok () files' ∧
      (∀ path', lay.Placed path' → path' ≠ path → files'.read path' = files.read path') ∧
      (∀ cnRoot', files'.read path = some cnRoot' → cnRoot' = cnRoot) ∧
      ∀ repo, look files' path repo = findChild cnRoot repo) ∨
    ∃ files', (storeOrUnlink treeCodec host cnRoot path).run files = .error (.exit 2) files' ∧
      (∀ path', lay.Placed path' → files'.read path' = files.read path') ∧ ¬ host.Obliging := by
  rw [storeOrUnlink]
  by_cases hchildren : cnRoot.children ≠ []
  · rw [if_pos hchildren]
    obtain ⟨files', hrun, hread⟩ | hfailed :=
      writeFile_run host files hplaced cnRoot
    · have hfile : files'.read path = some cnRoot := by rw [hread path hplaced, if_pos rfl]
      refine .inl ⟨files', hrun, ?_, ?_, look_of_read hfile⟩
      · intro path' hplaced' hne
        rw [hread path' hplaced', if_neg hne]
      · intro cnRoot' hread'
        rw [hfile] at hread'
        exact (Option.some.inj hread').symm
    · exact .inr hfailed
  · rw [if_neg hchildren]
    by_cases hunlinks : host.unlinks path = true
    · have hgone : (files.remove path).read path = none := by rw [read_remove, if_pos rfl]
      refine .inl ⟨files.remove path, ?_, ?_, ?_, ?_⟩
      · rw [if_pos hunlinks]
        rfl
      · intro path' _ hne
        rw [read_remove, if_neg hne]
      · intro cnRoot' hread'
        rw [hgone] at hread'
        cases hread'
      · intro repo
        rw [look, hgone, Option.bind_none, findChild, not_not.mp hchildren]
        rfl
    · refine .inr ⟨files, ?_, fun _ _ => rfl, fun hobliging => hunlinks (hobliging.2.2 _)⟩
      rw [if_neg hunlinks]
      rfl

theorem removerepoAction_agrees (hmeets : Meets lay host options) (h : Shows lay files b)
    (hdot : repo.head? ≠ some '.') (hmain : repo ≠ mainSection) :
    Agrees lay host b (b.removerepo repo)
      ((removerepoAction treeCodec host options repo).run files) := by
  rw [removerepoAction, Book.removerepo]
  cases hb : b repo with
  | none =>
      rw [run_bind_error (getRepoRoot_of_none hmeets h hdot hb)]
      exact .inr (.inl ⟨_, files, rfl, rfl, h⟩)
  | some s =>
      obtain ⟨cnRoot, path, cnRepo, hrun, hplace, hread, horderly, hfind, -⟩ :=
        getRepoRoot_of_some hmeets h hdot hb
      have hremove : removeRepo cnRoot repo = .ok (unlinkChild cnRoot repo) := by
        rw [removeRepo, hfind]
      rw [run_bind_ok hrun, hremove]
      obtain ⟨files', hstore, hothers, hfile, hlook⟩ | ⟨files', hstore, hreads, hobliging⟩ :=
        storeOrUnlink_run host files hplace.placed (unlinkChild cnRoot repo)
      · refine .inl ⟨[], files', _, ?_, rfl, h.replace hdot hplace none ?_ ?_ ?_ ?_⟩
        · rw [fromExcept_ok_bind, run_bind_ok hstore]
          rfl
        · intro path' repo' hdot' hplaced'
          by_cases hpath : path' = path
          · subst hpath
            rw [hlook, findChild_unlinkChild horderly.once hdot, look_of_read hread]
            simp only [true_and]
          · rw [if_neg fun hboth => hpath hboth.1, look, hothers path' hplaced' hpath, look]
        · intro path' cnRoot' hplaced' hread'
          by_cases hpath : path' = path
          · subst hpath
            rw [hfile cnRoot' hread']
            exact horderly.unlinkChild hdot
          · rw [hothers path' hplaced' hpath] at hread'
            exact h.orderly path' cnRoot' hplaced' hread'
        · intro path' cnRepo' hplace' hlook'
          have hhere : look files path repo = some cnRepo := by rw [look_of_read hread, hfind]
          exact h.apart repo path' path cnRepo' cnRepo hdot hplace' hplace hlook' hhere
        · exact fun hrepo => absurd hrepo hmain
      · refine .inr (.inr ⟨files', ?_, h.same hreads, hobliging⟩)
        rw [fromExcept_ok_bind, run_bind_error hstore]

/-- The file of a section that is created holds what it held, and has no such section. -/
theorem createTarget_run (hmeets : Meets lay host options) (h : Shows lay files b)
    (hnone : ∀ path, lay.visible path → look files path repo = none)
    (hunclaimed : options.repoConfig = none →
      lay.visible (repoFile lay.repodir repo) ∧ repoFile lay.repodir repo ∉ files.paths) :
    ∃ cnRoot path, (createTarget treeCodec host options lay.repodir repo).run files =
        .ok (cnRoot, path) files ∧ lay.visible path ∧ OrderlyFile cnRoot ∧
      findChild cnRoot repo = none ∧ ∀ repo', look files path repo' = findChild cnRoot repo' := by
  have hempty : ∀ path, files.read path = none → ∀ repo', look files path repo' =
      findChild (createCnfnode "(root)".toList) repo' := by
    intro path hread repo'
    rw [look, hread]
    rfl
  rw [createTarget]
  cases hoption : options.repoConfig with
  | none =>
      obtain ⟨hvisible, hmem⟩ := hunclaimed hoption
      exact ⟨_, _, rfl, hvisible, orderlyFile_root, rfl, hempty _ (read_eq_none_iff.mpr hmem)⟩
  | some repoConfig =>
      have hvisible := hmeets.repoConfig repoConfig hoption
      cases hread : files.read repoConfig with
      | none =>
          refine ⟨_, repoConfig, ?_, hvisible, orderlyFile_root, rfl, hempty repoConfig hread⟩
          simp only
          rw [run_bind_ok (parseFile_of_none hread)]
          rfl
      | some cnRoot =>
          have hlook := look_of_read hread
          refine ⟨cnRoot, repoConfig, ?_, hvisible, h.orderly repoConfig cnRoot (.inl hvisible) hread,
            ?_, hlook⟩
          · simp only
            rw [run_bind_ok (parseFile_of_some (hmeets.readable repoConfig (.inl hvisible)) hread)]
            rfl
          · rw [← hlook]
            exact hnone repoConfig hvisible

theorem createAction_agrees (hmeets : Meets lay host options) (h : Shows lay files b)
    (hname : FitsName repo) (hkv : ∀ keyval ∈ args, FitsSetting keyval)
    (hunclaimed : options.repoConfig = none →
      lay.visible (repoFile lay.repodir repo) ∧ repoFile lay.repodir repo ∉ files.paths) :
    Agrees lay host b (b.create repo args)
      ((createAction treeCodec host options repo args).run files) := by
  rw [createAction, Book.create]
  by_cases hmain : repo = mainSection
  · rw [if_pos hmain, if_pos hmain]
    exact .inr (.inl ⟨_, files, rfl, rfl, h⟩)
  rw [if_neg hmain, if_neg hmain, run_bind_ok (getRepodir_run hmeets h)]
  cases hb : b repo with
  | some s =>
      obtain ⟨cnRoot, path, cnRepo, hrun, -⟩ := findRepo_of_some hmeets h hname.dot hmain hb
      rw [run_bind_ok hrun]
      exact .inr (.inl ⟨_, files, rfl, rfl, h⟩)
  | none =>
      have hnone : ∀ path, lay.visible path → look files path repo = none := fun path hvisible =>
        h.look_eq_none hname.dot hb ((place_of_ne hmain).mpr hvisible)
      obtain ⟨cnRoot, path, htarget, hvisible, horderly, hfree, hlook⟩ :=
        createTarget_run hmeets h hnone hunclaimed
      have hplace : lay.Place repo path := (place_of_ne hmain).mpr hvisible
      have hnew : findChild (appendNode cnRoot (createCnfnode repo)) repo =
          some (createCnfnode repo) := by rw [findChild_appendNode hfree, if_pos rfl]
      have hsection : OrderlySection (createCnfnode repo) := ⟨hname.tidy, List.Pairwise.nil⟩
      have hloop := settings_setLoop args (createCnfnode repo)
      have hsettings : settings (createCnfnode repo) = fun _ => none := rfl
      rw [run_bind_ok (findRepo_of_none hmeets h hname.dot hmain hb)]
      simp only
      rw [run_bind_ok htarget, setKeyValues_of_find hnew]
      rw [hsettings] at hloop
      cases hresult : args.foldlM setKeyValue (createCnfnode repo) with
      | error halt =>
          rw [← hloop, hresult]
          exact .inr (.inl ⟨halt, files, rfl, rfl, h⟩)
      | ok cnRepo' =>
          obtain ⟨horderly', children, rfl⟩ := foldlM_varies (fun cn cn' keyval hkeyval hcn hstep =>
            setKeyValue_varies hcn (hkv keyval hkeyval) hstep) hsection hresult
          rw [← hloop, hresult]
          refine write_agrees h hname.dot hplace
            ((horderly.append hname hfree).withSection hname.dot hnew horderly') ?_ ?_
            fun hrepo => absurd hrepo hmain
          · intro repo' _
            rw [findChild_withSection hnew, findChild_appendNode hfree, hlook]
            split
            · rfl
            · rfl
          · intro path' cnRepo' hplace' hlook'
            rw [hnone path' ((place_of_ne hmain).mp hplace')] at hlook'
            cases hlook'

/-- A run is a step of the book. -/
theorem configMain_agrees (hmeets : Meets lay host options) (h : Shows lay files b)
    {argv : List Text} (hplain : Plain argv) (hunclaimed : Unclaimed lay options argv files) :
    Agrees lay host b (b.step argv) ((configMain treeCodec host options argv).run files) := by
  cases argv with
  | nil => exact .inl ⟨[], files, b, rfl, rfl, h⟩
  | cons action argv =>
  cases argv with
  | nil => exact .inr (.inl ⟨_, files, rfl, rfl, h⟩)
  | cons repo args =>
      obtain ⟨⟨hdot, hname, hkv⟩, hdump, hremove, hmain⟩ := hplain
      simp only [configMain, Book.step]
      by_cases hremoverepo : action = "removerepo".toList
      · rw [if_pos hremoverepo, if_pos hremoverepo]
        exact removerepoAction_agrees hmeets h hdot fun hrepo => (hmain hrepo).1 hremoverepo
      rw [if_neg hremoverepo, if_neg hremoverepo, if_neg hdump]
      cases args with
      | nil => exact .inr (.inl ⟨_, files, rfl, rfl, h⟩)
      | cons arg args =>
          simp only
          by_cases hedit : action = "edit".toList
          · rw [if_pos hedit, if_pos hedit]
            exact editAction_agrees hmeets h hdot (hkv (.inl hedit)) fun hrepo =>
              (hmain hrepo).2.1 hedit
          rw [if_neg hedit, if_neg hedit]
          by_cases hcreate : action = "create".toList
          · rw [if_pos hcreate, if_pos hcreate]
            subst hcreate
            exact createAction_agrees hmeets h (hname rfl) (hkv (.inr rfl))
              (hunclaimed repo (arg :: args) rfl)
          rw [if_neg hcreate, if_neg hcreate]
          by_cases hget : action = "get".toList
          · rw [if_pos hget, if_pos hget]
            exact getAction_agrees hmeets h hdot arg
          rw [if_neg hget, if_neg hget]
          by_cases hrem : action = "remove".toList
          · rw [if_pos hrem, if_pos hrem]
            exact removeAction_agrees hmeets h hdot (hremove hrem) fun hrepo =>
              (hmain hrepo).2.2 hrem
          · rw [if_neg hrem, if_neg hrem]
            exact .inr (.inl ⟨_, files, rfl, rfl, h⟩)

end Actions

/-! ## Runs -/

/-- Files whose trees show a book. -/
def Displays (lay : Layout) (texts : Table Text Text) (b : Book) : Prop :=
  ∃ trees, Stored texts trees ∧ Shows lay trees b

/-- Runs of the commands about settings, over files of the layout. -/
def Careful (lay : Layout) : List Invocation → Table Text Text → Prop
  | [], _ => True
  | run :: runs, files =>
    Meets lay run.host run.options ∧ Plain run.argv ∧ Unclaimed lay run.options run.argv files ∧
      Careful lay runs
        (finalState ((configMain iniCodec run.host run.options run.argv).run files))

/-- Runs over a book. A command fails for its own reason, or is refused by the system, and changes
nothing then. -/
inductive BookRun : Book → List Invocation → List (Except Halt Text) → Book → Prop where
  | nil (b : Book) : BookRun b [] [] b
  | done {b b' b'' : Book} {run : Invocation} {runs : List Invocation} {output : Text}
      {results : List (Except Halt Text)} (h : b.step run.argv = .ok (output, b'))
      (rest : BookRun b' runs results b'') : BookRun b (run :: runs) (.ok output :: results) b''
  | failed {b b' : Book} {run : Invocation} {runs : List Invocation} {halt : Halt}
      {results : List (Except Halt Text)} (h : b.step run.argv = .error halt)
      (rest : BookRun b runs results b') : BookRun b (run :: runs) (.error halt :: results) b'
  | refused {b b' : Book} {run : Invocation} {runs : List Invocation}
      {results : List (Except Halt Text)} (h : ¬ run.host.Obliging)
      (rest : BookRun b runs results b') : BookRun b (run :: runs) (.error (.exit 2) :: results) b'

theorem Plain.fits {argv : List Text} (h : Plain argv) : FitsArgs argv := by
  cases argv with
  | nil => trivial
  | cons action argv =>
  cases argv with
  | nil => trivial
  | cons repo args => exact h.1

section Runs

variable {lay : Layout} {b : Book} {texts : Table Text Text} {run : Invocation}
  {runs : List Invocation}

/-- One run over the texts. -/
theorem displays_run (hdisplays : Displays lay texts b) (hmeets : Meets lay run.host run.options)
    (hplain : Plain run.argv) (hunclaimed : Unclaimed lay run.options run.argv texts) :
    (∃ output texts' b', (configMain iniCodec run.host run.options run.argv).run texts =
        .ok output texts' ∧ b.step run.argv = .ok (output, b') ∧ Displays lay texts' b') ∨
      ∃ halt texts', (configMain iniCodec run.host run.options run.argv).run texts =
        .error halt texts' ∧ (b.step run.argv = .error halt ∨
          halt = .exit 2 ∧ ¬ run.host.Obliging) ∧ Displays lay texts' b := by
  obtain ⟨trees, hstored, hshows⟩ := hdisplays
  have hunclaimed' : Unclaimed lay run.options run.argv trees := by
    intro repo args hargv hoption
    rw [← hstored.paths]
    exact hunclaimed repo args hargv hoption
  have hends := coupled_configMain run.host run.options hplain.fits texts trees hstored
  obtain ⟨output, trees', b', hrun, hstep, hshows'⟩ | ⟨halt, trees', hrun, hstep, hshows'⟩ |
    ⟨trees', hrun, hshows', hobliging⟩ := configMain_agrees hmeets hshows hplain hunclaimed'
  · rw [hrun] at hends
    obtain ⟨output', texts', htext, rfl, -, hstored'⟩ := hends.of_ok
    exact .inl ⟨output', texts', b', htext, hstep, trees', hstored', hshows'⟩
  · rw [hrun] at hends
    obtain ⟨texts', htext, hstored'⟩ := hends.of_error
    exact .inr ⟨halt, texts', htext, .inl hstep, trees', hstored', hshows'⟩
  · rw [hrun] at hends
    obtain ⟨texts', htext, hstored'⟩ := hends.of_error
    exact .inr ⟨_, texts', htext, .inr ⟨rfl, hobliging⟩, trees', hstored', hshows'⟩

end Runs

/-! ## A repository directory -/

section Example

theorem getLast_repoFile {path : Text} (h : isRepoFile path = true) :
    path.getLast? = some 'o' ∧ path.length ≤ 251 := by
  rw [isRepoFile, Bool.and_eq_true, List.isSuffixOf_iff_suffix, decide_eq_true_eq] at h
  obtain ⟨⟨front, rfl⟩, hlength⟩ := h
  exact ⟨by simp [List.getLast?_append], hlength⟩

theorem getLast_tmpName {path : Text} (h : path.length ≤ 251) :
    (tmpName path).getLast? = some 'p' := by
  rw [tmpName, snprintf, List.take_of_length_le]
  · simp [List.getLast?_append]
  · simp only [List.length_append]
    have hlen : ".tmp".toList.length = 4 := by decide
    omega

/-- The files as they are installed. -/
def installed : Layout where
  mainConfig := "/etc/tdnf/tdnf.conf".toList
  repodir := defaultRepoLocation
  visible path := isRepoFile path = true
  hidden := by decide
  temporary := by
    intro path hpath
    have hlength : path.length ≤ 251 := by
      obtain hvisible | rfl := hpath
      · exact (getLast_repoFile hvisible).2
      · decide
    have hlast := getLast_tmpName hlength
    constructor
    · intro hvisible
      rw [(getLast_repoFile hvisible).1] at hlast
      exact absurd hlast (by decide)
    · intro hmain
      rw [hmain] at hlast
      exact absurd hlast (by decide)

/-- A main configuration without settings. -/
def bareMain : CnfNode := ⟨"(root)".toList, none, [createCnfnode mainSection]⟩

def bareBook : Book := Function.update (fun _ => none) mainSection (some fun _ => none)

theorem tidy_bareMain : Tidy bareMain := by
  refine ⟨rfl, rfl, [], [createCnfnode mainSection], rfl, by simp, ?_⟩
  rw [List.forall_mem_singleton]
  exact FitsName.tidy ⟨by decide, by decide, by decide, by simp [mainSection, isSpace], by decide,
    by decide⟩

theorem findChild_bareMain (repo : Text) :
    findChild bareMain repo = if repo = mainSection then some (createCnfnode mainSection) else none := by
  by_cases h : repo = mainSection
  · subst h
    rfl
  · have hne : ¬ (createCnfnode mainSection).name = repo := fun heq => h heq.symm
    rw [if_neg h, findChild, bareMain, Keyed.lookup_cons, if_neg hne]
    rfl

theorem shows_bareMain : Shows installed [(installed.mainConfig, bareMain)] bareBook := by
  have hread : ∀ path cnRoot, Table.read [(installed.mainConfig, bareMain)] path = some cnRoot ↔
      path = installed.mainConfig ∧ cnRoot = bareMain := by
    intro path cnRoot
    rw [Table.read, Keyed.lookup_cons]
    by_cases h : installed.mainConfig = path
    · rw [if_pos h]
      simp [h, eq_comm]
    · rw [if_neg h]
      simp [Keyed.lookup, Ne.symm h]
  have hlook : ∀ path repo cnRepo, look [(installed.mainConfig, bareMain)] path repo = some cnRepo ↔
      path = installed.mainConfig ∧ repo = mainSection ∧ cnRepo = createCnfnode mainSection := by
    intro path repo cnRepo
    rw [look, Option.bind_eq_some_iff]
    constructor
    · rintro ⟨cnRoot, hfile, hfind⟩
      obtain ⟨rfl, rfl⟩ := (hread path cnRoot).mp hfile
      rw [findChild_bareMain] at hfind
      split at hfind
      · rename_i hrepo
        exact ⟨rfl, hrepo, (Option.some.inj hfind).symm⟩
      · cases hfind
    · rintro ⟨rfl, rfl, rfl⟩
      exact ⟨bareMain, (hread _ _).mpr ⟨rfl, rfl⟩, by rw [findChild_bareMain, if_pos rfl]⟩
  refine ⟨⟨fun _ => none, Function.update_self .., rfl⟩, ?_, ?_, ?_⟩
  · intro path cnRoot _ hfile
    obtain ⟨-, rfl⟩ := (hread path cnRoot).mp hfile
    refine ⟨tidy_bareMain, List.pairwise_singleton _ _, fun repo cnRepo _ hfind => ?_⟩
    rw [findChild_bareMain] at hfind
    split at hfind
    · obtain rfl := Option.some.inj hfind
      exact List.Pairwise.nil
    · cases hfind
  · intro repo path path' cnRepo cnRepo' _ _ _ h h'
    rw [((hlook _ _ _).mp h).1, ((hlook _ _ _).mp h').1]
  · intro repo s _
    constructor
    · intro hb
      by_cases hrepo : repo = mainSection
      · subst hrepo
        rw [bareBook, Function.update_self, Option.some.injEq] at hb
        exact ⟨installed.mainConfig, createCnfnode mainSection, place_main installed,
          (hlook _ _ _).mpr ⟨rfl, rfl, rfl⟩, hb⟩
      · rw [bareBook, Function.update_of_ne hrepo] at hb
        cases hb
    · rintro ⟨path, cnRepo, -, hfound, rfl⟩
      obtain ⟨-, rfl, rfl⟩ := (hlook _ _ _).mp hfound
      exact Function.update_self ..

theorem meets_installed (argv : List String) :
    Meets installed (openRun argv).host (openRun argv).options where
  mainConfig := rfl
  glob paths := ⟨paths.filter isRepoFile, rfl, fun path => List.mem_filter⟩
  readable _ _ := rfl
  repoConfig path h := by cases h

end Example

end Tdnf.Llconf
