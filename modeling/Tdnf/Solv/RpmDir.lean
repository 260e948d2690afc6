import Tdnf.Common.Path

/-!
# Reading the packages of a directory

`readRpmsFromDir` goes through a directory and what is below it, and adds the files
whose names end in `.rpm`. It finds the ending by its distance from the end of a
name. The recursion goes through a list of steps, which is determined by the tree;
where the call stops depends on which of the steps fail.
-/

namespace Tdnf.Solv.RpmDir

open PathText Common

/-- What `readdir` returns of a directory, one entry after the other, without the entries for the
directory itself and its parent. The letters of a name are its bytes. -/
inductive Listing where
  | done
  | file (name : Name) (rest : Listing)
  | dir (name : Name) (entries rest : Listing)
deriving DecidableEq

namespace Listing

def names : Listing → List Name
  | done => []
  | file name rest => name :: rest.names
  | dir name _ rest => name :: rest.names

/-- No directory has two entries of one name. -/
def Distinct : Listing → Prop
  | done => True
  | file name rest => name ∉ rest.names ∧ rest.Distinct
  | dir name entries rest => name ∉ rest.names ∧ entries.Distinct ∧ rest.Distinct

/-- The names that lead to each file. -/
def files : Listing → List (List Name)
  | done => []
  | file name rest => [name] :: rest.files
  | dir name entries rest => entries.files.map (name :: ·) ++ rest.files

end Listing

/-- A finite directory tree. -/
structure Directory where
  listing : Listing
  distinct : listing.Distinct

/-- What the operating system and libsolv answer: the `errno` of opening a directory and of
reading the status of a file, if that fails, and whether a file can be added as a package. -/
structure Host where
  opendir : Text → Option ℕ
  stat : Text → Option ℕ
  repoAddRpm : Text → Bool

/-- How a call ends that does not succeed. -/
inductive Halt where
  /-- A character in front of a name is read. -/
  | inFront
  | code (e : TdnfError)
deriving DecidableEq, Repr

/-- `BAIL_ON_TDNF_SYSTEM_ERROR` -/
def bailOnSystemError : Option ℕ → Except Halt Unit
  | none => .ok ()
  | some errno => .error (.code (.system errno))

/-- `d_name[0] == '.'` -/
def isHidden (name : Name) : Bool := name.val.head? = some '.'

/-- `strcmp(&d_name[strlen(d_name)-4], ".rpm") == 0` -/
def endsInRpm (name : Name) : Except Halt Bool :=
  if name.val.length < 4 then .error .inFront
  else .ok (name.val.drop (name.val.length - 4) = ".rpm".toList)

section Read

variable (host : Host)

/-- `repo_add_rpm` -/
def addRpm (pszPath : Text) (added : List Text) : Except Halt (List Text) :=
  if host.repoAddRpm pszPath then .ok (added ++ [pszPath])
  else .error (.code .invalidParameter)

/-- The loop of `readRpmsFromDir`; `added` are the packages of the repository. -/
def readEntries : Listing → Text → List Text → Except Halt (List Text)
  | .done, _, added => .ok added
  | .file name rest, pszDir, added =>
    if isHidden name then readEntries rest pszDir added
    else do
      let pszPath := joinPath [pszDir, name.val]
      bailOnSystemError (host.stat pszPath)
      let added ← if ← endsInRpm name then addRpm host pszPath added else pure added
      readEntries rest pszDir added
  | .dir name entries rest, pszDir, added =>
    if isHidden name then readEntries rest pszDir added
    else do
      let pszPath := joinPath [pszDir, name.val]
      bailOnSystemError (host.stat pszPath)
      bailOnSystemError (host.opendir pszPath)
      let added ← readEntries entries pszPath added
      readEntries rest pszDir added

/-- `readRpmsFromDir` -/
def readRpmsFromDir (listing : Listing) (pszDir : Text) (added : List Text) :
    Except Halt (List Text) := do
  bailOnSystemError (host.opendir pszDir)
  readEntries host listing pszDir added

end Read

/-! ## What the call promises -/

/-- The path that is put together on the way to a file. -/
def pathTo (pszDir : Text) (names : List Name) : Text :=
  names.foldl (fun path name => joinPath [path, name.val]) pszDir

/-- No name on the way is hidden, and the last one ends in `.rpm`. -/
def IsPackage (names : List Name) : Prop :=
  (∀ name ∈ names, isHidden name = false) ∧
    ∃ name, names.getLast? = some name ∧ ".rpm".toList <:+ name.val

/-- The call reads no character in front of a name, and if it succeeds it has added the package
files and each of them once. -/
structure Right (host : Host) (tree : Directory) (pszDir : Text) (added : List Text) : Prop where
  inside : readRpmsFromDir host tree.listing pszDir added ≠ .error .inFront
  exact : ∀ out, readRpmsFromDir host tree.listing pszDir added = .ok out →
    ∃ new, out = added ++ new ∧ new.Nodup ∧
      ∀ path, path ∈ new ↔ ∃ names ∈ tree.listing.files, IsPackage names ∧
        path = pathTo pszDir names

/-! ## The steps of a call -/

/-- A step that may end the call. -/
inductive Step where
  | opendir (pszDir : Text)
  | isDir (pszPath : Text)
  | suffix (pszPath : Text) (name : Name)
deriving DecidableEq

/-- The steps in a directory that is open, as far as none of them ends the call. -/
def Listing.steps : Listing → Text → List Step
  | done, _ => []
  | file name rest, pszDir =>
    (if isHidden name then []
      else [.isDir (joinPath [pszDir, name.val]), .suffix (joinPath [pszDir, name.val]) name]) ++
      rest.steps pszDir
  | dir name entries rest, pszDir =>
    (if isHidden name then []
      else .isDir (joinPath [pszDir, name.val]) :: .opendir (joinPath [pszDir, name.val]) ::
        entries.steps (joinPath [pszDir, name.val])) ++
      rest.steps pszDir

/-- The packages that a step adds. -/
def Step.adds : Step → Option Text
  | suffix pszPath name => if ".rpm".toList.isSuffixOf name.val then some pszPath else none
  | _ => none

/-- The host does what the step asks for. -/
def Host.Passes (host : Host) : Step → Prop
  | .opendir pszDir => host.opendir pszDir = none
  | .isDir pszPath => host.stat pszPath = none
  | .suffix pszPath name => ".rpm".toList <:+ name.val → host.repoAddRpm pszPath = true

/-- No step before this one fails. -/
def Reached (host : Host) (steps : List Step) (s : Step) : Prop :=
  ∃ before behind, steps = before ++ s :: behind ∧ ∀ t ∈ before, host.Passes t

/-- The names that the call reaches have room for the ending. -/
def Careful (host : Host) (tree : Directory) (pszDir : Text) : Prop :=
  ∀ pszPath name, Reached host (.opendir pszDir :: tree.listing.steps pszDir)
    (.suffix pszPath name) → 4 ≤ name.val.length

/-! ## One step -/

section Step

variable {host : Host} {s : Step} {name : Name}

/-- What the call does in a step. -/
def perform (host : Host) (added : List Text) : Step → Except Halt (List Text)
  | .opendir pszDir => do
    bailOnSystemError (host.opendir pszDir)
    pure added
  | .isDir pszPath => do
    bailOnSystemError (host.stat pszPath)
    pure added
  | .suffix pszPath name => do
    if ← endsInRpm name then addRpm host pszPath added else pure added

/-- A step reads in front of a name. -/
def Step.Short : Step → Prop
  | suffix _ name => name.val.length < 4
  | _ => False

theorem endsInRpm_of_le (h : 4 ≤ name.val.length) :
    endsInRpm name = .ok (".rpm".toList.isSuffixOf name.val) := by
  rw [endsInRpm, if_neg (by omega), Except.ok.injEq, Bool.eq_iff_iff, decide_eq_true_eq,
    List.isSuffixOf_iff_suffix, List.suffix_iff_eq_drop, eq_comm]
  rfl

theorem perform_short (h : s.Short) (added : List Text) :
    perform host added s = .error .inFront := by
  cases s with
  | opendir pszDir => cases h
  | isDir pszPath => cases h
  | suffix pszPath name =>
      have hlength : name.val.length < 4 := h
      simp only [perform, endsInRpm, if_pos hlength]
      rfl

theorem perform_passes (hshort : ¬ s.Short) (h : host.Passes s) (added : List Text) :
    perform host added s = .ok (added ++ s.adds.toList) := by
  cases s with
  | opendir pszDir =>
      have hopen : host.opendir pszDir = none := h
      simp [perform, hopen, bailOnSystemError, Step.adds, bind, Except.bind, pure, Except.pure]
  | isDir pszPath =>
      have hstat : host.stat pszPath = none := h
      simp [perform, hstat, bailOnSystemError, Step.adds, bind, Except.bind, pure, Except.pure]
  | suffix pszPath name =>
      have hlength : 4 ≤ name.val.length := Nat.not_lt.mp hshort
      simp only [perform, endsInRpm_of_le hlength, bind, Except.bind, Step.adds]
      split
      · next hends =>
          have hadd : host.repoAddRpm pszPath = true := h (List.isSuffixOf_iff_suffix.mp hends)
          rw [addRpm, if_pos hadd]
          rfl
      · rw [Option.toList_none, List.append_nil]
        rfl

theorem perform_fails (hshort : ¬ s.Short) (h : ¬ host.Passes s) (added : List Text) :
    ∃ e, perform host added s = .error (.code e) := by
  cases s with
  | opendir pszDir =>
      cases hopen : host.opendir pszDir with
      | none => exact absurd hopen h
      | some errno =>
          refine ⟨.system errno, ?_⟩
          simp only [perform, hopen]
          rfl
  | isDir pszPath =>
      cases hstat : host.stat pszPath with
      | none => exact absurd hstat h
      | some errno =>
          refine ⟨.system errno, ?_⟩
          simp only [perform, hstat]
          rfl
  | suffix pszPath name =>
      have hlength : 4 ≤ name.val.length := Nat.not_lt.mp hshort
      simp only [Host.Passes, Classical.not_imp] at h
      obtain ⟨hends, hadd⟩ := h
      refine ⟨.invalidParameter, ?_⟩
      simp only [perform, endsInRpm_of_le hlength, bind, Except.bind]
      rw [if_pos (List.isSuffixOf_iff_suffix.mpr hends), addRpm, if_neg hadd]

end Step

/-! ## The run over the steps -/

section Run

variable {host : Host}

theorem readEntries_eq (host : Host) (listing : Listing) (pszDir : Text) (added : List Text) :
    readEntries host listing pszDir added =
      (listing.steps pszDir).foldlM (perform host) added := by
  induction listing generalizing pszDir added with
  | done => rfl
  | file name rest ih =>
      rw [readEntries, Listing.steps]
      by_cases hhidden : isHidden name = true
      · rw [if_pos hhidden, if_pos hhidden, List.nil_append, ih]
      · rw [if_neg hhidden, if_neg hhidden]
        simp only [List.cons_append, List.nil_append, List.foldlM_cons, perform, ih]
        cases host.stat (joinPath [pszDir, name.val]) with
        | some errno => rfl
        | none =>
            cases endsInRpm name with
            | error halt => rfl
            | ok ends => cases ends <;> rfl
  | dir name entries rest ihEntries ihRest =>
      rw [readEntries, Listing.steps]
      by_cases hhidden : isHidden name = true
      · rw [if_pos hhidden, if_pos hhidden, List.nil_append, ihRest]
      · rw [if_neg hhidden, if_neg hhidden]
        simp only [List.cons_append, List.foldlM_cons, List.foldlM_append, perform, ihEntries,
          ihRest]
        cases host.stat (joinPath [pszDir, name.val]) with
        | some errno => rfl
        | none => cases host.opendir (joinPath [pszDir, name.val]) <;> rfl

theorem reached_cons {s t : Step} {steps : List Step} :
    Reached host (s :: steps) t ↔ t = s ∨ host.Passes s ∧ Reached host steps t := by
  constructor
  · rintro ⟨before, behind, hsplit, hbefore⟩
    cases before with
    | nil =>
        rw [List.nil_append] at hsplit
        exact .inl (List.cons.inj hsplit).1.symm
    | cons b before =>
        rw [List.cons_append] at hsplit
        obtain ⟨rfl, hsteps⟩ := List.cons.inj hsplit
        rw [List.forall_mem_cons] at hbefore
        exact .inr ⟨hbefore.1, before, behind, hsteps, hbefore.2⟩
  · rintro (rfl | ⟨hs, before, behind, rfl, hbefore⟩)
    · exact ⟨[], steps, rfl, by simp⟩
    · exact ⟨s :: before, behind, rfl, List.forall_mem_cons.mpr ⟨hs, hbefore⟩⟩

/-- The run ends in front of a name exactly if it reaches a short one. -/
theorem run_inFront_iff (steps : List Step) (added : List Text) :
    steps.foldlM (perform host) added = .error .inFront ↔
      ∃ s, Reached host steps s ∧ s.Short := by
  induction steps generalizing added with
  | nil =>
      simp only [List.foldlM_nil]
      constructor
      · intro h
        cases h
      · rintro ⟨s, ⟨before, behind, hsplit, -⟩, -⟩
        simp at hsplit
  | cons s steps ih =>
      simp only [List.foldlM_cons, bind, Except.bind, reached_cons]
      by_cases hshort : s.Short
      · rw [perform_short hshort]
        exact iff_of_true rfl ⟨s, .inl rfl, hshort⟩
      · by_cases hs : host.Passes s
        · rw [perform_passes hshort hs]
          refine (ih _).trans ⟨?_, ?_⟩
          · rintro ⟨t, hreached, ht⟩
            exact ⟨t, .inr ⟨hs, hreached⟩, ht⟩
          · rintro ⟨t, rfl | ⟨-, hreached⟩, ht⟩
            · exact absurd ht hshort
            · exact ⟨t, hreached, ht⟩
        · obtain ⟨e, he⟩ := perform_fails hshort hs added
          rw [he]
          refine iff_of_false (by simp) ?_
          rintro ⟨t, rfl | ⟨hpasses, -⟩, ht⟩
          · exact hshort ht
          · exact hs hpasses

/-- A run that succeeds has added what its steps add. -/
theorem run_ok {steps : List Step} {added out : List Text}
    (h : steps.foldlM (perform host) added = .ok out) :
    out = added ++ steps.filterMap Step.adds := by
  induction steps generalizing added with
  | nil =>
      cases h
      exact (List.append_nil _).symm
  | cons s steps ih =>
      simp only [List.foldlM_cons, bind, Except.bind] at h
      by_cases hshort : s.Short
      · rw [perform_short hshort] at h
        cases h
      · by_cases hs : host.Passes s
        · rw [perform_passes hshort hs] at h
          rw [ih h, List.append_assoc]
          congr 1
          cases hadds : s.adds with
          | none => rw [List.filterMap_cons_none hadds, Option.toList_none, List.nil_append]
          | some path => rw [List.filterMap_cons_some hadds, Option.toList_some,
              List.singleton_append]
        · obtain ⟨e, he⟩ := perform_fails hshort hs added
          rw [he] at h
          cases h

end Run

/-! ## The packages of a tree -/

section Packages

variable {listing : Listing} {pszDir path : Text} {name : Name} {names : List Name}

/-- The path of a file leads from the directory along its names. -/
theorem moves_pathTo (pszDir : Text) (names : List Name) :
    moves (pathTo pszDir names) = moves pszDir ++ names.map .down := by
  induction names generalizing pszDir with
  | nil => exact (List.append_nil _).symm
  | cons name names ih =>
      have hstep : moves (joinPath [pszDir, name.val]) = moves pszDir ++ [.down name] := by
        simp [moves_joinPath, moves_name]
      rw [pathTo, List.foldl_cons]
      refine (ih _).trans ?_
      rw [hstep, List.append_assoc, List.map_cons]
      rfl

theorem pathTo_inj {names' : List Name} (h : pathTo pszDir names = pathTo pszDir names') :
    names = names' := by
  have hmoves := congrArg moves h
  rw [moves_pathTo, moves_pathTo, List.append_cancel_left_eq] at hmoves
  refine List.map_injective_iff.mpr ?_ hmoves
  intro a b hab
  cases hab
  rfl

theorem head_mem_names (h : name :: names ∈ listing.files) : name ∈ listing.names := by
  induction listing generalizing names with
  | done => cases h
  | file other rest ih =>
      rw [Listing.files, List.mem_cons] at h
      rw [Listing.names, List.mem_cons]
      exact h.imp (fun heq => (List.cons.inj heq).1) ih
  | dir other entries rest _ ih =>
      rw [Listing.files, List.mem_append, List.mem_map] at h
      rw [Listing.names, List.mem_cons]
      refine h.imp ?_ ih
      rintro ⟨below, -, heq⟩
      exact (List.cons.inj heq).1.symm

theorem ne_nil_of_mem_files (h : names ∈ listing.files) : names ≠ [] := by
  rintro rfl
  induction listing with
  | done => cases h
  | file name rest ih => exact ih (by simpa [Listing.files] using h)
  | dir name entries rest _ ih => exact ih (by simpa [Listing.files] using h)

theorem isPackage_singleton :
    IsPackage [name] ↔ isHidden name = false ∧ ".rpm".toList <:+ name.val := by
  simp [IsPackage]

/-- A file below a directory is a package if the directory is not hidden and the file is a
package as seen from there. -/
theorem isPackage_cons (hne : names ≠ []) :
    IsPackage (name :: names) ↔ isHidden name = false ∧ IsPackage names := by
  rw [IsPackage, IsPackage, List.forall_mem_cons, List.getLast?_cons_of_ne_nil hne, and_assoc]

/-- A file that is listed in a directory is added if it is a package. -/
theorem filterMap_adds_file : (if isHidden name then []
      else [Step.isDir path, Step.suffix path name]).filterMap Step.adds =
    if isHidden name = false ∧ ".rpm".toList <:+ name.val then [path] else [] := by
  cases hhidden : isHidden name with
  | true => simp
  | false =>
      by_cases hends : ".rpm".toList <:+ name.val
      · rw [if_neg Bool.false_ne_true, if_pos ⟨rfl, hends⟩]
        simp only [List.filterMap_cons, Step.adds, if_pos (List.isSuffixOf_iff_suffix.mpr hends),
          List.filterMap_nil]
      · rw [if_neg Bool.false_ne_true, if_neg fun h => hends h.2]
        simp only [List.filterMap_cons, Step.adds,
          if_neg fun h => hends (List.isSuffixOf_iff_suffix.mp h), List.filterMap_nil]

/-- A directory that is listed adds what is below it. -/
theorem filterMap_adds_dir (steps : List Step) : (if isHidden name then []
      else .isDir path :: .opendir path :: steps).filterMap Step.adds =
    if isHidden name = false then steps.filterMap Step.adds else [] := by
  cases hhidden : isHidden name with
  | true => simp
  | false =>
      rw [if_neg Bool.false_ne_true, if_pos rfl, List.filterMap_cons_none rfl,
        List.filterMap_cons_none rfl]

/-- The steps add the packages of the tree. -/
theorem mem_adds_iff : path ∈ (listing.steps pszDir).filterMap Step.adds ↔
    ∃ names ∈ listing.files, IsPackage names ∧ path = pathTo pszDir names := by
  induction listing generalizing pszDir with
  | done => simp [Listing.steps, Listing.files]
  | file name rest ih =>
      rw [Listing.steps, Listing.files, List.filterMap_append, List.mem_append, ih,
        filterMap_adds_file]
      simp only [List.exists_mem_cons_iff, isPackage_singleton]
      refine or_congr ?_ Iff.rfl
      split
      · next h =>
          rw [List.mem_singleton, and_iff_right h]
          rfl
      · next h => exact iff_of_false List.not_mem_nil fun hpackage => h hpackage.1
  | dir name entries rest ihEntries ihRest =>
      rw [Listing.steps, Listing.files, List.filterMap_append, List.mem_append, ihRest,
        filterMap_adds_dir]
      constructor
      · rintro (h | ⟨names, hnames, h⟩)
        · split at h
          · next hhidden =>
              obtain ⟨names, hnames, hpackage, rfl⟩ := ihEntries.mp h
              refine ⟨name :: names, ?_, ?_, rfl⟩
              · exact List.mem_append_left _ (List.mem_map_of_mem hnames)
              · exact (isPackage_cons (ne_nil_of_mem_files hnames)).mpr ⟨hhidden, hpackage⟩
          · cases h
        · exact ⟨names, List.mem_append_right _ hnames, h⟩
      · rintro ⟨names, hnames, hpackage, rfl⟩
        obtain hbelow | hrest := List.mem_append.mp hnames
        · obtain ⟨below, hmem, rfl⟩ := List.mem_map.mp hbelow
          obtain ⟨hhidden, hpackage⟩ := (isPackage_cons (ne_nil_of_mem_files hmem)).mp hpackage
          rw [if_pos hhidden]
          exact .inl (ihEntries.mpr ⟨below, hmem, hpackage, rfl⟩)
        · exact .inr ⟨names, hrest, hpackage, rfl⟩

/-- They add each of them once. -/
theorem nodup_adds (h : listing.Distinct) :
    ((listing.steps pszDir).filterMap Step.adds).Nodup := by
  -- what the rest of a directory adds lies below other names
  have hother {rest : Listing} {pszDir path : Text} {name : Name} (below : List Name)
      (hname : name ∉ rest.names) (hpath : path = pathTo pszDir (name :: below)) :
      path ∉ (rest.steps pszDir).filterMap Step.adds := by
    rintro hmem
    obtain ⟨names, hnames, -, rfl⟩ := mem_adds_iff.mp hmem
    obtain rfl := pathTo_inj hpath
    exact hname (head_mem_names hnames)
  induction listing generalizing pszDir with
  | done => exact List.nodup_nil
  | file name rest ih =>
      obtain ⟨hname, hrest⟩ := h
      rw [Listing.steps, List.filterMap_append, filterMap_adds_file, List.nodup_append]
      refine ⟨?_, ih hrest, ?_⟩
      · split
        · exact List.pairwise_singleton _ _
        · exact List.nodup_nil
      · rintro path hpath other hmem rfl
        split at hpath
        · exact hother [] hname (List.mem_singleton.mp hpath) hmem
        · cases hpath
  | dir name entries rest ihEntries ihRest =>
      obtain ⟨hname, hentries, hrest⟩ := h
      rw [Listing.steps, List.filterMap_append, filterMap_adds_dir, List.nodup_append]
      refine ⟨?_, ihRest hrest, ?_⟩
      · split
        · exact ihEntries hentries
        · exact List.nodup_nil
      · rintro path hpath other hmem rfl
        split at hpath
        · obtain ⟨below, -, -, heq⟩ := mem_adds_iff.mp hpath
          exact hother below hname heq hmem
        · cases hpath

end Packages

/-! ## The call -/

section Call

variable {host : Host} {pszDir : Text}

theorem readRpmsFromDir_eq (host : Host) (listing : Listing) (pszDir : Text)
    (added : List Text) : readRpmsFromDir host listing pszDir added =
      (.opendir pszDir :: listing.steps pszDir).foldlM (perform host) added := by
  rw [readRpmsFromDir, List.foldlM_cons, perform]
  cases host.opendir pszDir with
  | some errno => rfl
  | none => exact readEntries_eq host listing pszDir added

theorem careful_iff {tree : Directory} : Careful host tree pszDir ↔
    ¬ ∃ s, Reached host (.opendir pszDir :: tree.listing.steps pszDir) s ∧ s.Short := by
  constructor
  · rintro h ⟨s, hreached, hshort⟩
    cases s with
    | opendir path => exact hshort
    | isDir path => exact hshort
    | suffix path name => exact Nat.not_lt.mpr (h path name hreached) hshort
  · intro h path name hreached
    by_contra hlength
    exact h ⟨_, hreached, Nat.not_le.mp hlength⟩

/-- The call does what it should exactly if it reaches no short name. -/
theorem readRpmsFromDir_right_iff (host : Host) (tree : Directory) (pszDir : Text)
    (added : List Text) : Right host tree pszDir added ↔ Careful host tree pszDir := by
  constructor
  · intro h
    rw [careful_iff, ← run_inFront_iff _ added, ← readRpmsFromDir_eq]
    exact h.inside
  · intro h
    refine ⟨?_, ?_⟩
    · rw [readRpmsFromDir_eq, Ne, run_inFront_iff]
      exact careful_iff.mp h
    · intro out hout
      rw [readRpmsFromDir_eq] at hout
      have hrun := run_ok hout
      rw [List.filterMap_cons_none rfl] at hrun
      exact ⟨_, hrun, nodup_adds tree.distinct, fun path => mem_adds_iff⟩

/-- Every operation succeeds. -/
def willing : Host := ⟨fun _ => none, fun _ => none, fun _ => true⟩

/-- A directory with a file whose name is one letter long. -/
def oneLetter : Directory := ⟨.file ⟨['a'], by decide⟩ .done, List.not_mem_nil, trivial⟩

example : readRpmsFromDir willing (.dir ⟨"sub".toList, by decide⟩
    (.file ⟨"a.rpm".toList, by decide⟩ .done) (.file ⟨".b.rpm".toList, by decide⟩ .done))
    "/srv".toList [] = .ok ["/srv/sub/a.rpm".toList] := rfl

theorem one_letter_not_right : ¬ Right willing oneLetter "/srv".toList [] := by
  intro h
  apply h.inside
  rfl

end Call

end Tdnf.Solv.RpmDir
